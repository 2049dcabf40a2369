import CssTheming.Proofs.Value.Replacement

/-!
# What a value leaves open

A string, a comment and calls may be open at the end of a value. Writing the nodes of a value gives
its text back and behind it what closes these, and nothing else: the text that is closed in this way
is read as the same nodes, unless a backslash at its end takes the first closing character in.
-/

namespace CssTheming.Value

inductive OpenPart where
  | string (quote : Char)
  | comment
  deriving DecidableEq

/-- What is open at the end of a text: a string or a comment, and the calls around it. -/
structure Unclosed where
  part : Option OpenPart
  calls : Nat
  deriving DecidableEq

def OpenPart.mark : OpenPart → List Char
  | .string quote => [quote]
  | .comment => ['*', '/']

namespace Unclosed

def closing (u : Unclosed) : List Char :=
  (u.part.elim [] OpenPart.mark) ++ List.replicate u.calls ')'

def close (u : Unclosed) : String := String.ofList u.closing

theorem closing_eq_nil_iff {u : Unclosed} : u.closing = [] ↔ u.part = none ∧ u.calls = 0 := by
  obtain ⟨part, calls⟩ := u
  rcases part with _ | (quote | _) <;> simp [closing, OpenPart.mark]

end Unclosed

/-- What a text leaves open that stands inside of some calls. A `url` whose argument is not quoted
has neither strings nor comments in its parentheses. -/
def unclosedIn (calls : Nat) (s : List Char) : Unclosed :=
  match s with
  | [] => ⟨none, calls⟩
  | c :: r =>
    if c = '"' ∨ c = '\'' then
      match _h : Text.quoted? c r with
      | some (_, rest) => unclosedIn calls rest
      | none => ⟨some (.string c), calls⟩
    else if c = '/' ∧ r.head? = some '*' then
      match _h : Text.comment? r.tail with
      | some (_, rest) => unclosedIn calls rest
      | none => ⟨some .comment, calls⟩
    else if c = '(' then unclosedIn (calls + 1) r
    -- A parenthesis that closes nothing is text.
    else if c = ')' then unclosedIn (calls - 1) r
    else if endsWord c then unclosedIn calls r
    else
      match _h : (firstWord c r).2 with
      | '(' :: t =>
        if isBareUrl (firstWord c r).1 t then
          match _h' : Text.quoted? ')' t with
          | some (_, rest) => unclosedIn calls rest
          | none => ⟨none, calls + 1⟩
        else unclosedIn (calls + 1) t
      | rest => unclosedIn calls rest
termination_by s.length
decreasing_by
  · have := congrArg List.length (Text.quoted?_eq_some _h)
    simp at this ⊢; omega
  · have := congrArg List.length (Text.comment?_eq_some _h)
    simp at this ⊢; omega
  · simp
  · simp
  · simp
  · have hword := length_firstWord_le c r
    have := congrArg List.length (Text.quoted?_eq_some _h')
    rw [_h, List.length_cons] at hword
    simp at this ⊢; omega
  · have hword := length_firstWord_le c r
    rw [_h, List.length_cons] at hword
    simp; omega
  · exact Nat.lt_succ_of_le (_h ▸ length_firstWord_le c r)

def unclosed (v : String) : Unclosed := unclosedIn 0 v.toList

variable {nested : Bool} {c : Char} {r s w : List Char} {k : Nat}

/-! ## Tokens -/

theorem unclosedIn_nil (k : Nat) : unclosedIn k [] = ⟨none, k⟩ := by rw [unclosedIn]

theorem unclosedIn_quote (hc : c = '"' ∨ c = '\'') (k : Nat) (r : List Char) :
    unclosedIn k (c :: r) =
      (Text.quoted? c r).elim ⟨some (.string c), k⟩ fun p => unclosedIn k p.2 := by
  rw [unclosedIn, if_pos hc]
  cases h : Text.quoted? c r <;> rfl

theorem unclosedIn_comment (k : Nat) (r : List Char) :
    unclosedIn k ('/' :: '*' :: r) =
      (Text.comment? r).elim ⟨some .comment, k⟩ fun p => unclosedIn k p.2 := by
  rw [unclosedIn, if_neg (by decide), if_pos ⟨rfl, rfl⟩, List.tail_cons]
  cases h : Text.comment? r <;> rfl

theorem unclosedIn_open (k : Nat) (r : List Char) :
    unclosedIn k ('(' :: r) = unclosedIn (k + 1) r := by
  rw [unclosedIn, if_neg (by decide), if_neg (by simp), if_pos rfl]

theorem unclosedIn_close (k : Nat) (r : List Char) :
    unclosedIn k (')' :: r) = unclosedIn (k - 1) r := by
  rw [unclosedIn, if_neg (by decide), if_neg (by simp), if_neg (by decide), if_pos rfl]

/-- White space and the marks between values open and close nothing. -/
theorem unclosedIn_mark (hc : Text.isWhitespace c = true ∨ c = ',' ∨ c = '/' ∨ c = ':')
    (hcomment : ¬(c = '/' ∧ r.head? = some '*')) (k : Nat) :
    unclosedIn k (c :: r) = unclosedIn k r := by
  have hends : endsWord c = true := by rcases hc with hc | rfl | rfl | rfl <;> simp_all [endsWord]
  have hne : c ≠ '"' ∧ c ≠ '\'' ∧ c ≠ '(' ∧ c ≠ ')' := by
    refine ⟨?_, ?_, ?_, ?_⟩ <;> rintro rfl <;> revert hc <;> decide
  rw [unclosedIn, if_neg (by simp [hne]), if_neg hcomment, if_neg hne.2.2.1, if_neg hne.2.2.2,
    if_pos hends]

theorem unclosedIn_space (hw : ∀ c ∈ w, Text.isWhitespace c = true) (k : Nat) (s : List Char) :
    unclosedIn k (w ++ s) = unclosedIn k s := by
  induction w with
  | nil => rfl
  | cons c w ih =>
    have hc := hw c List.mem_cons_self
    rw [List.cons_append, unclosedIn_mark (.inl hc), ih fun d hd => hw d (List.mem_cons_of_mem c hd)]
    rintro ⟨rfl, -⟩
    exact absurd hc (by decide)

theorem unclosedIn_dropWhile (k : Nat) (s : List Char) :
    unclosedIn k (s.dropWhile Text.isWhitespace) = unclosedIn k s := by
  conv => rhs; rw [← List.takeWhile_append_dropWhile (p := Text.isWhitespace) (l := s)]
  exact (unclosedIn_space isWhitespace_of_mem_takeWhile k _).symm

/-- What a word, and the text behind it, leaves open. -/
def unclosedFrom (k : Nat) (w : List Char) : List Char → Unclosed
  | '(' :: t =>
    if isBareUrl w t then (Text.quoted? ')' t).elim ⟨none, k + 1⟩ fun p => unclosedIn k p.2
    else unclosedIn (k + 1) t
  | s => unclosedIn k s

theorem unclosedFrom_of_ne (hs : s.head? ≠ some '(') (k : Nat) (w : List Char) :
    unclosedFrom k w s = unclosedIn k s := by
  rw [unclosedFrom]
  rintro t rfl
  exact hs rfl

theorem unclosedIn_word (hc : endsWord c = false) (k : Nat) (r : List Char) :
    unclosedIn k (c :: r) = unclosedFrom k (readWord (c :: r)).1 (readWord (c :: r)).2 := by
  have hne : ¬(c = '"' ∨ c = '\'') ∧ c ≠ '/' ∧ c ≠ '(' ∧ c ≠ ')' := by
    refine ⟨?_, ?_, ?_, ?_⟩
    · rintro (rfl | rfl) <;> exact absurd hc (by decide)
    all_goals rintro rfl; exact absurd hc (by decide)
  rw [unclosedIn, if_neg hne.1, if_neg fun h => hne.2.1 h.1, if_neg hne.2.2.1, if_neg hne.2.2.2,
    if_neg (by simp [hc])]
  split
  · rename_i t ht
    rw [firstWord_of_not_endsWord hc] at ht ⊢
    rw [ht, unclosedFrom]
    split
    · cases h : Text.quoted? ')' t <;> rfl
    · rfl
  · rename_i hnot
    rw [firstWord_of_not_endsWord hc] at hnot ⊢
    rw [unclosedFrom]
    exact hnot

/-- The calls that are open behind a token. -/
def Token.depth (k : Nat) : Token → Nat
  | .opening _ _ => k + 1
  | .closing => k - 1
  | _ => k

theorem Token.length_calls (tok : Token) (inner : List Node) (calls : List OpenCall) :
    (tok.calls inner calls).length = tok.depth calls.length := by
  cases tok <;> simp [Token.calls, Token.depth]

/-- A text is a token and the rest, the one closed as the others are. -/
def Closes (k : Nat) (s : List Char) (tok : Token) (rest : List Char) : Prop :=
  tok.text ++ (rest ++ (unclosedIn (tok.depth k) rest).closing) = s ++ (unclosedIn k s).closing

theorem closes_of_eq {tok : Token} {rest : List Char} (htext : tok.text ++ rest = s)
    (h : unclosedIn k s = unclosedIn (tok.depth k) rest) : Closes k s tok rest := by
  rw [Closes, h, ← List.append_assoc, htext]

theorem closes_of_open {n : Node} {u : Unclosed} (h : unclosedIn k s = u)
    (htext : n.text.toList ++ List.replicate k ')' = s ++ u.closing) :
    Closes k s (.node n) [] := by
  rw [Closes, h, ← htext]
  exact congrArg (n.text.toList ++ ·) (congrArg Unclosed.closing (unclosedIn_nil k))

theorem closes_string (hc : c = '"' ∨ c = '\'') (k : Nat) (r : List Char) :
    Closes k (c :: r) (.node (.string (String.ofList (Text.readQuoted c r).1) c))
      (Text.readQuoted c r).2 := by
  have h := unclosedIn_quote hc k r
  rw [Text.readQuoted]
  cases hq : Text.quoted? c r with
  | none =>
    rw [hq] at h
    apply closes_of_open h
    simp [Node.text, Unclosed.closing, OpenPart.mark]
  | some p =>
    rw [hq] at h
    apply closes_of_eq _ h
    simp [Token.text, Node.text, Text.quoted?_eq_some hq]

theorem closes_comment (k : Nat) (r : List Char) :
    Closes k ('/' :: '*' :: r) (.node (.comment (String.ofList (Text.readComment r).1)))
      (Text.readComment r).2 := by
  have h := unclosedIn_comment k r
  rw [Text.readComment]
  cases hq : Text.comment? r with
  | none =>
    rw [hq] at h
    apply closes_of_open h
    simp [Node.text, Unclosed.closing, OpenPart.mark]
  | some p =>
    rw [hq] at h
    apply closes_of_eq _ h
    simp [Token.text, Node.text, Text.comment?_eq_some hq]

/-- White space in front of a text does not matter to where it is closed. -/
theorem quoted?_space (hw : ∀ c ∈ w, Text.isWhitespace c = true) (s : List Char) :
    Text.quoted? ')' (w ++ s) = (Text.quoted? ')' s).map fun p => (w ++ p.1, p.2) := by
  induction w with
  | nil => cases h : Text.quoted? ')' s <;> simp [h]
  | cons c w ih =>
    have hne : c ≠ '\\' ∧ c ≠ ')' := by
      constructor <;> rintro rfl <;> exact absurd (hw _ List.mem_cons_self) (by decide)
    rw [List.cons_append, Text.quoted?_cons_of_ne hne.1, if_neg hne.2,
      ih fun d hd => hw d (List.mem_cons_of_mem c hd), Option.map_map]
    rfl

theorem closes_url (hbare : isBareUrl w r = true) (h : unclosedIn k s = unclosedFrom k w ('(' :: r))
    (hs : s = w ++ '(' :: r) : Closes k s (.node (readUrl w r).1) (readUrl w r).2 := by
  obtain ⟨before, contents, hbefore, -, hnode, ⟨happ, hq⟩ | ⟨happ, hrest, hq⟩⟩ := readUrl_spec hbare
  · have hq' : Text.quoted? ')' r = some (before ++ contents, (readUrl w r).2) := by
      have := Text.quoted?_append (by decide) hq (readUrl w r).2
      rw [List.append_assoc, List.singleton_append, List.nil_append] at this
      conv => lhs; rw [happ, quoted?_space hbefore, this]
      rfl
    rw [unclosedFrom, if_pos hbare, hq'] at h
    apply closes_of_eq _ h
    rw [Token.text, hnode, text_urlNode, hs]
    conv => rhs; rw [happ]
    simp
  · have hq' : Text.quoted? ')' r = none := by rw [happ, quoted?_space hbefore, hq]; rfl
    rw [unclosedFrom, if_pos hbare, hq'] at h
    rw [hrest]
    apply closes_of_open h
    rw [hnode, text_urlNode, hs, happ]
    simp [Unclosed.closing, List.replicate_succ]

theorem closes_opening (htext : s = w ++ '(' :: r) (h : unclosedIn k s = unclosedIn (k + 1) r) :
    Closes k s (.opening w (r.takeWhile Text.isWhitespace)) (r.dropWhile Text.isWhitespace) := by
  apply closes_of_eq
  · rw [htext, Token.text, List.append_assoc, List.cons_append, List.takeWhile_append_dropWhile]
  · rw [h, Token.depth, unclosedIn_dropWhile]

theorem closes_wordToken (h : unclosedIn k (w ++ s) = unclosedFrom k w s) :
    Closes k (w ++ s) (wordToken w s).1 (wordToken w s).2 := by
  by_cases hs : s.head? = some '('
  · obtain ⟨t, rfl⟩ := List.head?_eq_some_iff.1 hs
    rw [wordToken]
    by_cases hbare : isBareUrl w t = true
    · rw [if_pos hbare]
      exact closes_url hbare h rfl
    · rw [unclosedFrom, if_neg hbare] at h
      rw [if_neg hbare]
      exact closes_opening rfl h
  · rw [unclosedFrom_of_ne hs] at h
    rw [wordToken_of_ne hs]
    exact closes_of_eq (by simp [Token.text, Node.text]) h

/-- The first token of a text is closed by what closes the text. -/
theorem closes_lex (hnested : nested = true ↔ k ≠ 0) (c : Char) (r : List Char) :
    Closes k (c :: r) (lex nested c r).1 (lex nested c r).2 := by
  have hsplit : r.takeWhile Text.isWhitespace ++ r.dropWhile Text.isWhitespace = r :=
    List.takeWhile_append_dropWhile
  rw [lex]
  split
  · rename_i hc
    apply closes_of_eq
    · simp [Token.text, Node.text, hsplit]
    · rw [unclosedIn_mark (.inl hc) (by rintro ⟨rfl, -⟩; exact absurd hc (by decide))]
      exact (unclosedIn_dropWhile k r).symm
  split
  · rename_i hquote
    exact closes_string hquote k r
  split
  · rename_i hcomment
    obtain ⟨rfl, hr⟩ := hcomment
    obtain ⟨r, rfl⟩ := List.head?_eq_some_iff.1 hr
    exact closes_comment k r
  split
  · rename_i hcomment hmark
    apply closes_of_eq
    · rw [Token.text, List.cons_append, hsplit]
    · rw [unclosedIn_mark (.inr hmark) hcomment]
      exact (unclosedIn_dropWhile k r).symm
  split
  · rename_i hopen
    subst hopen
    exact closes_opening rfl (unclosedIn_open k r)
  split
  · rename_i hclose
    obtain ⟨rfl, -⟩ := hclose
    exact closes_of_eq rfl (unclosedIn_close k r)
  · rename_i hspace hquote hcomment hmark hopen hclose
    by_cases hc : c = ')'
    · subst hc
      obtain rfl : k = 0 := by simpa [hnested] using hclose
      rw [show firstWord ')' r = ([')'], r) from rfl]
      apply closes_wordToken (w := [')'])
      rw [List.singleton_append, unclosedIn_close]
      by_cases hr : r.head? = some '('
      · obtain ⟨t, rfl⟩ := List.head?_eq_some_iff.1 hr
        exact unclosedIn_open 0 t
      · exact (unclosedFrom_of_ne hr 0 _).symm
    · have hword : endsWord c = false := by simp_all [endsWord]
      have happ := (readWord_spec (c :: r)).1
      have h := unclosedIn_word hword k r
      rw [firstWord_of_not_endsWord hword]
      conv at h => lhs; rw [happ]
      have := closes_wordToken h
      rwa [← happ] at this

/-! ## Values -/

theorem exists_token_closes (hs : s ≠ []) (calls : List OpenCall) :
    ∃ tok rest, Lexed (!calls.isEmpty) s tok rest ∧ rest.length < s.length ∧
      Closes calls.length s tok rest ∧
      ∀ inner, run s inner calls = run rest (tok.inner inner calls) (tok.calls inner calls) := by
  obtain ⟨c, r, rfl⟩ := List.exists_cons_of_ne_nil hs
  have hlexed := lexed (!calls.isEmpty) c r
  refine ⟨_, _, hlexed, hlexed.length_lt hs, ?_, fun inner => run_cons c r inner calls⟩
  apply closes_lex
  cases calls <;> simp

/-- Reading a text that stands inside of calls keeps it, and closes what it leaves open. -/
theorem text_run_eq (s : List Char) (inner : List Node) (calls : List OpenCall) :
    (text (run s inner calls)).toList =
      openText inner calls ++ (s ++ (unclosedIn calls.length s).closing) := by
  induction hlen : s.length using Nat.strongRecOn generalizing s inner calls with
  | ind n ih =>
    subst hlen
    by_cases hs : s = []
    · rw [hs, run_nil, text_closeAll, unclosedIn_nil]
      rfl
    · obtain ⟨tok, rest, hlexed, hlt, hcloses, hrun⟩ := exists_token_closes hs calls
      rw [hrun, ih _ hlt _ _ _ rfl, openText_token hlexed.calls_of_closing, Token.length_calls,
        List.append_assoc, hcloses]

/-- A token also stands in front of the rest once this is closed. -/
theorem suits_closing (k : Nat) (s : List Char) : Suits s (s ++ (unclosedIn k s).closing) := by
  cases s with
  | nil =>
    rw [unclosedIn_nil]
    cases k with
    | zero => exact .inl rfl
    | succ k => exact .inr (.inl ⟨rfl, rfl⟩)
  | cons c s => exact .inl rfl

/-- A text that is closed is read as it was read open, unless a backslash at its end takes in what
closes it. -/
theorem run_closing (s : List Char) (hs : s.getLast? ≠ some '\\') (inner : List Node)
    (calls : List OpenCall) :
    run (s ++ (unclosedIn calls.length s).closing) inner calls = run s inner calls := by
  induction hlen : s.length using Nat.strongRecOn generalizing s inner calls with
  | ind n ih =>
    subst hlen
    by_cases hnil : s = []
    · rw [hnil, run_nil, unclosedIn_nil]
      exact run_parens (Nat.le_refl _) inner
    · obtain ⟨tok, rest, hlexed, hlt, hcloses, hrun⟩ := exists_token_closes hnil calls
      have hfits : Fits (!calls.isEmpty) (rest ++ (unclosedIn (tok.depth calls.length) rest).closing)
          tok := by
        cases hlexed with
        | whole h => exact h.suits (suits_closing _ rest)
        | closed _ _ h => exact h _
        | frayed _ _ _ hlast => exact absurd hlast hs
      have hrest : rest.getLast? ≠ some '\\' := by
        rcases hlexed.text_append with happ | ⟨rfl, -⟩
        · rw [← happ, List.getLast?_append] at hs
          intro h
          simp [h] at hs
        · simp
      rw [hrun, ← ih _ hlt rest hrest _ _ rfl, Token.length_calls, ← hcloses]
      exact run_of_fits hfits inner

theorem quote_of_unclosedIn {quote : Char} (h : (unclosedIn k s).part = some (.string quote)) :
    quote = '"' ∨ quote = '\'' := by
  fun_induction unclosedIn k s with
  | case3 k c r hc =>
    obtain rfl : c = quote := by simpa using h
    exact hc
  | _ => simp_all

/-- What closes a text opens no call. -/
theorem paren_not_mem_closing (v : String) : '(' ∉ (unclosed v).closing := by
  have hmark : '(' ∉ (unclosed v).part.elim [] OpenPart.mark := by
    cases h : (unclosed v).part with
    | none => simp
    | some part =>
      cases part with
      | string quote => rcases quote_of_unclosedIn h with rfl | rfl <;> decide
      | comment => decide
  have hparens : '(' ∉ List.replicate (unclosed v).calls ')' := fun hmem =>
    absurd (List.eq_of_mem_replicate hmem) (by decide)
  simp [Unclosed.closing, hmark, hparens]

theorem exists_mark_close (v : String) :
    ∃ mark ∈ ["", "\"", "'", "*/"], ∃ k,
      (unclosed v).close = mark ++ String.ofList (List.replicate k ')') := by
  simp only [Unclosed.close, Unclosed.closing, String.ofList_append]
  cases h : (unclosed v).part with
  | none => exact ⟨"", by simp, _, rfl⟩
  | some part =>
    cases part with
    | string quote =>
      rcases quote_of_unclosedIn h with rfl | rfl
      · exact ⟨"\"", by simp, _, rfl⟩
      · exact ⟨"'", by simp, _, rfl⟩
    | comment => exact ⟨"*/", by simp, _, rfl⟩

theorem text_parse_eq (v : String) : text (parse v) = v ++ (unclosed v).close := by
  rw [← String.toList_inj, parse, text_run_eq, String.toList_append, Unclosed.close,
    String.toList_ofList]
  rfl

theorem parse_close (v : String) (hv : v.toList.getLast? ≠ some '\\') :
    parse (v ++ (unclosed v).close) = parse v := by
  rw [parse, String.toList_append, Unclosed.close, String.toList_ofList]
  exact run_closing v.toList hv [] []

theorem close_eq_empty_iff {u : Unclosed} : u.close = "" ↔ u.part = none ∧ u.calls = 0 := by
  rw [Unclosed.close, ← Unclosed.closing_eq_nil_iff, ← String.toList_inj, String.toList_ofList]
  rfl

/-- Writing the nodes of a value gives its text and behind it what closes the parts that are open at
its end: at most a quote or the end of a comment, and then parentheses. Unless the value ends in a
backslash, the closed text has the same nodes. -/
theorem text_parse_closing (v : String) :
    text (parse v) = v ++ (unclosed v).close ∧
      (∃ mark ∈ ["", "\"", "'", "*/"], ∃ k,
        (unclosed v).close = mark ++ String.ofList (List.replicate k ')')) ∧
      ((unclosed v).close = "" ↔ (unclosed v).part = none ∧ (unclosed v).calls = 0) ∧
      (v.toList.getLast? ≠ some '\\' → parse (v ++ (unclosed v).close) = parse v) :=
  ⟨text_parse_eq v, exists_mark_close v, close_eq_empty_iff, parse_close v⟩

theorem parse_closing_string :
    unclosed "a(\"b" = ⟨some (.string '"'), 1⟩ ∧ text (parse "a(\"b") = "a(\"b\")" ∧
      parse "a(\"b\")" = parse "a(\"b" := by
  have h : unclosed "a(\"b" = ⟨some (.string '"'), 1⟩ := by decide +kernel
  have hclosing := text_parse_closing "a(\"b"
  rw [h] at hclosing
  exact ⟨h, hclosing.1, hclosing.2.2.2 (by decide)⟩

end CssTheming.Value
