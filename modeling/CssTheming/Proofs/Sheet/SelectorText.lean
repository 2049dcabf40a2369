import CssTheming.Proofs.Sheet.Authored
import CssTheming.Proofs.Text.Whitespace
import Mathlib.Data.List.Chain

/-!
# Selectors and what authors write

The selector of a rule is the text in front of its block with all white space collapsed. Reading
that text tells strings and escapes from the rest, but collapsing does not: the white space in them
stays as it is only where it is single spaces.
-/

namespace CssTheming.Sheet

open Text

variable {source path selector : String} {s : Sheet} {id : Nat} {c : Char} {r text : List Char}
  {m : List (Char × Bool)}

/-! ## Strings and escapes -/

/-- The characters of a text, each with whether it belongs to a string or an escape. -/
def marks (s : List Char) : List (Char × Bool) :=
  match s with
  | [] => []
  | c :: r =>
    (unit c r).1.map (fun d => (d, decide (c = '\\') || isQuote c)) ++ marks (unit c r).2
termination_by s.length
decreasing_by have := length_unit_le c r; simp; omega

theorem map_fst_marks (s : List Char) : (marks s).map Prod.fst = s := by
  fun_induction marks s with
  | case1 => rfl
  | case2 c r ih =>
    have hunit : ((unit c r).1.map fun d => (d, decide (c = '\\') || isQuote c)).map Prod.fst =
        (unit c r).1 := by simp [Function.comp_def]
    rw [List.map_append, ih, hunit, unit_append]

theorem not_isWhitespace_of_isQuote (h : isQuote c = true) : isWhitespace c = false := by
  rcases (by simpa [isQuote] using h : c = '"' ∨ c = '\'') with rfl | rfl <;> rfl

/-- A string or an escape does not begin with white space. -/
def Begun (x y : Char × Bool) : Prop := x.2 = false → y.2 = true → isWhitespace y.1 = false

theorem begun_head_marks (x : Char × Bool) (s : List Char) : ∀ y ∈ (marks s).head?, Begun x y := by
  intro y hy _ hmarked
  cases s with
  | nil => simp [marks] at hy
  | cons c r =>
    obtain ⟨u, hu⟩ : ∃ u, (unit c r).1 = c :: u := by
      rw [unit]
      split
      · exact ⟨_, rfl⟩
      · split
        · exact ⟨_, rfl⟩
        · split
          · rename_i hcomment
            obtain ⟨rfl, -⟩ := hcomment
            split <;> exact ⟨_, rfl⟩
          · exact ⟨_, rfl⟩
    rw [marks, hu] at hy
    obtain rfl : (c, decide (c = '\\') || isQuote c) = y := by simpa using hy
    have hc : (c = '\\') ∨ isQuote c = true := by simpa using hmarked
    rcases hc with rfl | hquote
    · decide
    · exact not_isWhitespace_of_isQuote hquote

theorem isChain_marks (s : List Char) : (marks s).IsChain Begun := by
  fun_induction marks s with
  | case1 => exact .nil
  | case2 c r ih =>
    refine List.isChain_append.2 ⟨?_, ih, fun x _ y hy => begun_head_marks x _ y hy⟩
    rw [List.isChain_map]
    refine (List.pairwise_of_forall fun _ _ => ?_).isChain
    intro hfree hmarked
    rw [show (_ || _ : Bool) = false from hfree] at hmarked
    cases hmarked

/-! ## Collapsing the rest -/

/-- The text with each run of white space that is not marked as one space, and none at the end; the
argument tells whether some stands in front. -/
def squeeze (behindSpace : Bool) : List (Char × Bool) → List Char
  | [] => []
  | (c, marked) :: m =>
    if isWhitespace c && !marked then squeeze true m
    else if behindSpace then ' ' :: c :: squeeze false m
    else c :: squeeze false m

/-- All marked white space is spaces with something visible behind them. -/
def Kept : List (Char × Bool) → Prop
  | [] => True
  | (c, marked) :: m => (marked = true → isWhitespace c = true →
      c = ' ' ∧ ∃ d ∈ m.head?, isWhitespace d.1 = false) ∧ Kept m

instance decidableKept : ∀ m, Decidable (Kept m)
  | [] => inferInstanceAs (Decidable True)
  | (c, marked) :: m =>
    have := decidableKept m
    inferInstanceAs (Decidable ((marked = true → isWhitespace c = true →
      c = ' ' ∧ ∃ d ∈ m.head?, isWhitespace d.1 = false) ∧ Kept m))

theorem head_squeeze (m : List (Char × Bool)) : ∀ c ∈ (squeeze true m).head?, c = ' ' := by
  induction m with
  | nil => simp [squeeze]
  | cons x m ih =>
    obtain ⟨c, marked⟩ := x
    rw [squeeze]
    split
    · exact ih
    · simp

theorem kept_cons_of_not (hc : isWhitespace c = false) (marked : Bool) :
    Kept ((c, marked) :: m) ↔ Kept m :=
  and_iff_right fun _ hspace => absurd hspace (by simp [hc])

theorem kept_cons_free : Kept ((c, false) :: m) ↔ Kept m :=
  and_iff_right fun hmarked => by cases hmarked

/-- Marked white space is kept exactly if it is a space with a word behind it. -/
theorem gap_eq_cons_squeeze_iff (hc : isWhitespace c = true)
    (ih : collapseOn (m.map Prod.fst) = squeeze false m ↔ Kept m) :
    gap (m.map Prod.fst) = c :: squeeze false m ↔ Kept ((c, true) :: m) := by
  rw [Kept]
  cases m with
  | nil => simp [gap, collapse, words_nil, List.intercalate, hc]
  | cons x m =>
    obtain ⟨d, marked⟩ := x
    cases hd : isWhitespace d with
    | false =>
      rw [← ih, List.map_cons, gap_cons_of_not hd, ← collapseOn_cons_of_not hd]
      simp [hc, hd, eq_comm (a := ' ')]
    | true =>
      refine iff_of_false (fun heq => ?_) fun hkept => ?_
      · -- Behind a space that collapsing leaves, a word begins.
        rw [gap] at heq
        split at heq
        · cases heq
        · rename_i hne
          obtain ⟨e, w, hword, he⟩ := exists_collapse_eq_cons hne
          rw [hword] at heq
          obtain ⟨-, heq⟩ := List.cons.inj heq
          cases marked with
          | true =>
            rw [squeeze, if_neg (by simp), if_neg (by simp)] at heq
            rw [(List.cons.inj heq).1, hd] at he
            cases he
          | false =>
            rw [squeeze, if_pos (by simp [hd])] at heq
            have hspace := head_squeeze m e (by rw [← heq]; rfl)
            rw [hspace] at he
            exact absurd he (by decide)
      · obtain ⟨-, y, hy, hvisible⟩ := hkept.1 rfl hc
        obtain rfl : (d, marked) = y := by simpa using hy
        rw [hd] at hvisible
        cases hvisible

/-- Behind a word, and behind a word and white space. -/
theorem collapseOn_eq_squeeze_iff (hchain : m.IsChain Begun) :
    (collapseOn (m.map Prod.fst) = squeeze false m ↔ Kept m) ∧
      ((∀ x ∈ m.head?, Begun (' ', false) x) →
        (gap (m.map Prod.fst) = squeeze true m ↔ Kept m)) := by
  induction m with
  | nil => simp [collapseOn, gap, collapse, words_nil, squeeze, Kept]
  | cons x m ih =>
    obtain ⟨hhead, htail⟩ := List.isChain_cons.1 hchain
    obtain ⟨hword, hspace⟩ := ih htail
    obtain ⟨c, marked⟩ := x
    rw [List.map_cons]
    cases hc : isWhitespace c with
    | false =>
      rw [collapseOn_cons_of_not hc, gap_cons_of_not hc, squeeze, squeeze, hc,
        kept_cons_of_not hc, ← hword]
      simp
    | true =>
      rw [collapseOn_cons_space hc, gap_cons_space hc]
      cases marked with
      | false =>
        rw [squeeze, squeeze, if_pos (by simp [hc]), if_pos (by simp [hc]), kept_cons_free]
        exact ⟨hspace hhead, fun _ => hspace hhead⟩
      | true =>
        refine ⟨?_, fun hbegun => ?_⟩
        · rw [squeeze, if_neg (by simp), if_neg (by simp)]
          exact gap_eq_cons_squeeze_iff hc hword
        · have hvisible := hbegun (c, true) rfl rfl rfl
          rw [hc] at hvisible
          cases hvisible

/-- Collapsing a text that does not start with white space leaves its strings and escapes as they
are exactly if all white space in them is single spaces. -/
theorem collapse_eq_squeeze_iff (hstart : ∀ c ∈ text.head?, isWhitespace c = false) :
    collapse text = squeeze false (marks text) ↔ Kept (marks text) := by
  obtain ⟨m, hm, htext⟩ : ∃ m, marks text = m ∧ m.map Prod.fst = text :=
    ⟨_, rfl, map_fst_marks text⟩
  have hchain := isChain_marks text
  rw [hm] at hchain ⊢
  cases m with
  | nil =>
    obtain rfl : [] = text := htext
    simp [collapse, words_nil, squeeze, Kept]
  | cons x m =>
    obtain ⟨c, marked⟩ := x
    subst htext
    have hc : isWhitespace c = false := hstart c rfl
    rw [List.map_cons, collapse_cons_of_not hc, kept_cons_of_not hc, squeeze, hc,
      ← (collapseOn_eq_squeeze_iff (List.isChain_cons.1 hchain).2).1]
    simp

/-! ## Rules -/

/-- The text in front of the block of a rule, where its location says. -/
theorem exists_text_of_rule (hparse : parse source path = .ok s) (hid : id ∈ s.descendants root)
    (hk : s.kind? id = some (.rule selector)) :
    ∃ text rest, RestAt source.toList (s.location id).position (text ++ '{' :: rest) ∧
      readUntil headStops 0 (text ++ '{' :: rest) = (text, '{' :: rest) ∧
      selector = String.ofList (collapse text) ∧ ∀ c ∈ text.head?, isWhitespace c = false := by
  obtain ⟨rest, hrest, hbegins⟩ := standsAt_of_parse hparse hid hk
  generalize hkind : Kind.rule selector = kind at hbegins
  cases hbegins with
  | comment => cases hkind
  | atRule => cases hkind
  | declaration =>
    rw [declaration] at hkind
    cases hkind
  | @rule c r text rest hc htext =>
    cases hkind
    have happend := append_of_readUntil htext
    rw [happend] at hrest htext
    refine ⟨text, rest, hrest, htext, rfl, ?_⟩
    cases text with
    | nil => simp
    | cons d text =>
      obtain ⟨rfl, -⟩ := List.cons.inj happend
      simpa using hc.1

/-- The selector of a rule is the text in front of its block, collapsed. This leaves the strings and
escapes in it as they are, with the rest of its white space collapsed, exactly if all white space in
them is single spaces that have something visible behind them. -/
theorem selector_of_parse (hparse : parse source path = .ok s) (hid : id ∈ s.descendants root)
    (hk : s.kind? id = some (.rule selector)) :
    ∃ text rest, RestAt source.toList (s.location id).position (text ++ '{' :: rest) ∧
      readUntil headStops 0 (text ++ '{' :: rest) = (text, '{' :: rest) ∧
      selector.toList = collapse text ∧
      (selector.toList = squeeze false (marks text) ↔ Kept (marks text)) := by
  obtain ⟨text, rest, hrest, htext, rfl, hstart⟩ := exists_text_of_rule hparse hid hk
  refine ⟨text, rest, hrest, htext, String.toList_ofList, ?_⟩
  rw [String.toList_ofList]
  exact collapse_eq_squeeze_iff hstart

/-- A string and an escape with a single space in each. -/
theorem selector_of_parse_spaced :
    let source := "[title=\"a b\"]  >\n.c\\ d \x7b\x7d"
    let text := "[title=\"a b\"]  >\n.c\\ d ".toList
    let s := (parse source "a.css").toOption.getD default
    parse source "a.css" = .ok s ∧ s.kind? 1 = some (.rule "[title=\"a b\"] > .c\\ d") ∧
      source.toList = text ++ ['{', '}'] ∧ Kept (marks text) ∧
      "[title=\"a b\"] > .c\\ d".toList = squeeze false (marks text) := by
  intro source text s
  obtain ⟨hparse, hmem, hk, hpos⟩ : parse source "a.css" = .ok s ∧ 1 ∈ s.descendants root ∧
      s.kind? 1 = some (.rule "[title=\"a b\"] > .c\\ d") ∧
      (s.location 1).position = Position.start := by decide +kernel
  obtain ⟨hsource, hread, hkept⟩ : source.toList = text ++ ['{', '}'] ∧
      readUntil headStops 0 source.toList = (text, ['{', '}']) ∧ Kept (marks text) := by
    decide +kernel
  obtain ⟨text', rest, hrest, htext, -, hiff⟩ := selector_of_parse hparse hmem hk
  have hwhole : RestAt source.toList (s.location 1).position source.toList := ⟨[], rfl, hpos⟩
  rw [hwhole.unique hrest, hread] at htext
  obtain ⟨rfl, -⟩ := Prod.mk.inj htext
  exact ⟨hparse, hk, hsource, hkept, hiff.2 hkept⟩

/-- Two spaces in a string become one. -/
theorem selector_of_parse_string :
    let source := "[title=\"a  b\"] \x7b\x7d"
    let text := "[title=\"a  b\"] ".toList
    let s := (parse source "test.css").toOption.getD default
    parse source "test.css" = .ok s ∧ (s.location 1).position = Position.start ∧
      readUntil headStops 0 source.toList = (text, ['{', '}']) ∧
      squeeze false (marks text) = "[title=\"a  b\"]".toList ∧
      s.kind? 1 = some (.rule "[title=\"a b\"]") := by
  decide +kernel

end CssTheming.Sheet
