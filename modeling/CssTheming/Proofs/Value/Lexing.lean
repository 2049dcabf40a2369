import CssTheming.Proofs.Value.Token

/-!
# Tokens in front of a rest

When a token that is written in front of a text is read as itself, and that the tokens which are
read of a text are such tokens. Two kinds of tokens at the end of a text are not: those that are
open, which are written closed, and those that end in a backslash, which takes the character behind
it in.
-/

namespace CssTheming.Value

variable {nested : Bool} {c mark : Char} {r s t w name before after contents rest : List Char}

/-! ## Words -/

/-- A text that is one word and does not go on behind it. -/
def WholeWord (w : List Char) : Prop := w ≠ [] ∧ readWord w = (w, []) ∧ Text.dangles w = false

def EndsHere (s : List Char) : Prop := ∀ c ∈ s.head?, endsWord c = true

theorem readWord_cons_of_ne (h : c ≠ '\\') (r : List Char) :
    readWord (c :: r) = if endsWord c then ([], c :: r)
      else (c :: (readWord r).1, (readWord r).2) := by
  rw [readWord.eq_def]
  split
  · rename_i hnil
    simp at hnil
  · rename_i hcons
    exact absurd (List.cons.inj hcons).1 h
  · rename_i hcons
    obtain ⟨rfl, rfl⟩ := List.cons.inj hcons
    rfl

theorem readWord_escape (d : Char) (r : List Char) :
    readWord ('\\' :: d :: r) = ('\\' :: d :: (readWord r).1, (readWord r).2) := rfl

/-- A word goes on with the word behind it. -/
theorem readWord_append (hw : readWord w = (w, [])) (hend : Text.dangles w = false)
    (s : List Char) :
    readWord (w ++ s) = (w ++ (readWord s).1, (readWord s).2) := by
  fun_induction readWord w with
  | case1 => rfl
  | case2 d r v rest h ih =>
    rw [h] at ih
    obtain ⟨rfl, rfl⟩ : v = r ∧ rest = [] := by simpa using hw
    rw [List.cons_append, List.cons_append, readWord_escape, ih rfl hend]
    rfl
  | case3 => simp at hw
  | case4 c r hne hc v rest h ih =>
    rw [h] at ih
    obtain ⟨rfl, rfl⟩ : v = r ∧ rest = [] := by simpa using hw
    have hescape : c ≠ '\\' := by
      rcases Text.eq_nil_of_not_escape hne with hescape | rfl
      · exact hescape
      · rintro rfl
        simp [Text.dangles] at hend
    rw [Text.dangles_cons_of_ne hescape] at hend
    rw [List.cons_append, readWord_cons_of_ne hescape, if_neg hc, ih rfl hend]
    rfl

theorem EndsHere.readWord_eq (hs : EndsHere s) : readWord s = ([], s) := by
  cases s with
  | nil => rfl
  | cons c s =>
    have hc : endsWord c = true := hs c rfl
    rw [readWord_cons_of_ne (by rintro rfl; simp [endsWord] at hc; revert hc; decide), if_pos hc]

theorem WholeWord.append (hw : WholeWord w) (hs : WholeWord s) : WholeWord (w ++ s) := by
  refine ⟨by simp [hw.1], ?_, ?_⟩
  · rw [readWord_append hw.2.1 hw.2.2, hs.2.1]
  · rw [Text.dangles_append hw.2.2, hs.2.2]

/-- A word is read up to where it ends, or else to the end of the text. -/
theorem readWord_spec (r : List Char) :
    r = (readWord r).1 ++ (readWord r).2 ∧ readWord (readWord r).1 = ((readWord r).1, []) ∧
      EndsHere (readWord r).2 ∧
      (Text.dangles (readWord r).1 = true → (readWord r).2 = []) := by
  fun_induction readWord r with
  | case1 => exact ⟨rfl, rfl, by simp [EndsHere], fun _ => rfl⟩
  | case2 d r v rest h ih =>
    rw [h] at ih
    obtain ⟨happ, hv, hend, hdangles⟩ := ih
    refine ⟨by rw [happ]; rfl, ?_, hend, hdangles⟩
    rw [readWord_escape, hv]
  | case3 c r hne hc =>
    refine ⟨rfl, rfl, ?_, by simp [Text.dangles]⟩
    intro d hd
    obtain rfl : c = d := by simpa using hd
    exact hc
  | case4 c r hne hc v rest h ih =>
    rw [h] at ih
    obtain ⟨happ, hv, hend, hdangles⟩ := ih
    by_cases hescape : c = '\\'
    · subst hescape
      obtain rfl : r = [] := by
        rcases Text.eq_nil_of_not_escape hne with hescape | hr
        · exact absurd rfl hescape
        · exact hr
      obtain ⟨rfl, rfl⟩ : [] = v ∧ [] = rest := Prod.mk.inj h
      exact ⟨rfl, rfl, by simp [EndsHere], fun _ => rfl⟩
    · refine ⟨by rw [happ]; rfl, ?_, hend, ?_⟩
      · rw [readWord_cons_of_ne hescape, if_neg hc, hv]
      · rwa [Text.dangles_cons_of_ne hescape]

theorem firstWord_of_not_endsWord (hc : endsWord c = false) (r : List Char) :
    firstWord c r = readWord (c :: r) := by
  have hparen : c ≠ ')' := by
    rintro rfl
    exact absurd hc (by decide)
  rw [firstWord.eq_def, if_neg hparen]
  split
  · rfl
  · rename_i hne
    rcases Text.eq_nil_of_not_escape hne with hescape | rfl
    · rw [readWord_cons_of_ne hescape, hc]
      rfl
    · by_cases hescape : c = '\\'
      · subst hescape
        rfl
      · rw [readWord_cons_of_ne hescape, hc]
        rfl

theorem readWord_ne_nil (hc : endsWord c = false) (r : List Char) : (readWord (c :: r)).1 ≠ [] := by
  by_cases hescape : c = '\\'
  · subst hescape
    cases r <;> exact List.cons_ne_nil _ _
  · rw [readWord_cons_of_ne hescape, hc]
    exact List.cons_ne_nil _ _

theorem endsWord_of_readWord (h : readWord (c :: w) = (c :: w, [])) : endsWord c = false := by
  by_cases hescape : c = '\\'
  · rw [hescape]
    rfl
  · rw [readWord_cons_of_ne hescape] at h
    cases hc : endsWord c with
    | false => rfl
    | true => simp [hc] at h

/-! ## Calls of a bare `url` -/

/-- What stands in the parentheses of a bare `url`, white space in front of it aside. -/
structure UrlContents (contents : List Char) : Prop where
  noSpace : Text.StartsOff Text.isWhitespace contents
  noQuote : ∀ c ∈ contents.head?, c ≠ '"' ∧ c ≠ '\''

def urlNode (name before contents : List Char) : Node :=
  .call (String.ofList name) (String.ofList before) (String.ofList (Text.trailing contents))
    (if (Text.trimEnd contents).isEmpty then []
      else [.word (String.ofList (Text.trimEnd contents))]) none

theorem text_urlNode (name before contents : List Char) :
    (urlNode name before contents).text.toList = name ++ '(' ::
      (before ++ (contents ++ [')'])) := by
  have hargs : (text (if (Text.trimEnd contents).isEmpty then []
    else [.word (String.ofList (Text.trimEnd contents))])).toList =
      Text.trimEnd contents := by
    split
    · rename_i h
      rw [List.isEmpty_iff.1 h]
      rfl
    · simp [text, Node.text]
  calc
    (urlNode name before contents).text.toList =
        name ++ '(' :: (before ++ (Text.trimEnd contents ++ Text.trailing contents ++ [')'])) := by
      rw [urlNode, Node.text]
      simp only [String.toList_append, String.toList_ofList, hargs]
      simp
    _ = name ++ '(' :: (before ++ (contents ++ [')'])) := by rw [Text.trimEnd_append_trailing]

theorem isBareUrl_append (hbefore : ∀ c ∈ before, Text.isWhitespace c = true) (name s : List Char) :
    isBareUrl name (before ++ s) = isBareUrl name s := by
  rw [isBareUrl, isBareUrl, List.dropWhile_append_of_pos hbefore]

theorem startsOff_contents (h : UrlContents contents) (s : List Char) :
    Text.StartsOff Text.isWhitespace (contents ++ ')' :: s) := by
  cases contents with
  | nil =>
    intro c hc
    obtain rfl : ')' = c := by simpa using hc
    rfl
  | cons d contents => exact h.noSpace

theorem isBareUrl_contents (hurl : name.map Char.toLower = ['u', 'r', 'l'])
    (h : UrlContents contents) (s : List Char) :
    isBareUrl name (contents ++ ')' :: s) = true := by
  have hstart := startsOff_contents h s
  have hdrop : (contents ++ ')' :: s).dropWhile Text.isWhitespace = contents ++ ')' :: s :=
    (Text.takeWhile_append_of (s := []) (by simp) hstart).2
  rw [isBareUrl, hdrop, hurl]
  cases contents with
  | nil => rfl
  | cons d contents => simpa using h.noQuote d rfl

theorem readUrl_contents (hbefore : ∀ c ∈ before, Text.isWhitespace c = true)
    (h : UrlContents contents)
    (hclosed : Text.quoted? ')' (contents ++ ')' :: s) = some (contents, s)) (name : List Char) :
    readUrl name (before ++ (contents ++ ')' :: s)) = (urlNode name before contents, s) := by
  obtain ⟨htake, hdrop⟩ := Text.takeWhile_append_of hbefore (startsOff_contents h s)
  rw [readUrl, htake, hdrop, Text.readQuoted, hclosed]
  rfl

/-- Whatever is read as a bare `url` is the node of some contents, and an open one takes in
everything. -/
theorem readUrl_spec (hurl : isBareUrl name s = true) :
    ∃ before contents, (∀ c ∈ before, Text.isWhitespace c = true) ∧ UrlContents contents ∧
      (readUrl name s).1 = urlNode name before contents ∧
      ((s = before ++ (contents ++ ')' :: (readUrl name s).2) ∧
          Text.quoted? ')' (contents ++ [')']) = some (contents, [])) ∨
        s = before ++ contents ∧ (readUrl name s).2 = [] ∧ Text.quoted? ')' contents = none) := by
  have hsplit : s.takeWhile Text.isWhitespace ++ s.dropWhile Text.isWhitespace = s :=
    List.takeWhile_append_dropWhile
  have hstart := Text.startsOff_dropWhile Text.isWhitespace s
  have hquote : ∀ c ∈ (s.dropWhile Text.isWhitespace).head?, c ≠ '"' ∧ c ≠ '\'' := by
    intro c hc
    obtain ⟨t, ht⟩ := List.head?_eq_some_iff.1 hc
    have := (Bool.and_eq_true_iff.1 hurl).2
    rw [ht] at this
    simpa using this
  refine ⟨s.takeWhile Text.isWhitespace, (Text.readQuoted ')' (s.dropWhile Text.isWhitespace)).1,
    fun c hc => List.all_eq_true.1 List.all_takeWhile c hc, ?_, rfl, ?_⟩
  · cases hq : Text.quoted? ')' (s.dropWhile Text.isWhitespace) with
    | none => exact ⟨by rwa [Text.readQuoted, hq], by rwa [Text.readQuoted, hq]⟩
    | some p =>
      have happ := Text.quoted?_eq_some hq
      rw [Text.readQuoted, hq, Option.getD_some]
      refine ⟨fun c hc => hstart c ?_, fun c hc => hquote c ?_⟩
      · rw [happ, List.head?_append, hc]
        rfl
      · rw [happ, List.head?_append, hc]
        rfl
  · rw [readUrl]
    cases hq : Text.quoted? ')' (s.dropWhile Text.isWhitespace) with
    | none =>
      rw [Text.readQuoted, hq]
      exact .inr ⟨hsplit.symm, rfl, hq⟩
    | some p =>
      rw [Text.readQuoted, hq, Option.getD_some]
      refine .inl ⟨?_, Text.quoted?_take (by decide) hq⟩
      rw [← Text.quoted?_eq_some hq, hsplit]

/-! ## Tokens that are read as themselves -/

/-- A token that is read as itself in front of a rest. -/
inductive Fits (nested : Bool) (s : List Char) : Token → Prop
  | word {w : List Char} (hw : WholeWord w) (hend : EndsHere s) (hs : s.head? ≠ some '(') :
    Fits nested s (.node (.word (String.ofList w)))
  | paren (hnested : nested = false) (hs : s.head? ≠ some '(') : Fits nested s
    (.node (.word (String.ofList [')'])))
  | string {quote : Char} {v : List Char} (hquote : quote = '"' ∨ quote = '\'')
      (h : Text.quoted? quote (v ++ [quote]) = some (v, [])) :
    Fits nested s (.node (.string (String.ofList v) quote))
  | space {w : List Char} (hne : w ≠ []) (hw : ∀ c ∈ w, Text.isWhitespace c = true)
    (hs : Text.StartsOff Text.isWhitespace s) :
    Fits nested s (.node (.space (String.ofList w)))
  | comment {v : List Char} (h : Text.comment? (v ++ ['*', '/']) = some (v, [])) :
    Fits nested s (.node (.comment (String.ofList v)))
  | url {name before contents : List Char} (hname : WholeWord name)
    (hurl : name.map Char.toLower = ['u', 'r', 'l'])
      (hbefore : ∀ c ∈ before, Text.isWhitespace c = true) (hcontents : UrlContents contents)
      (h : Text.quoted? ')' (contents ++ [')']) = some (contents, [])) :
    Fits nested s (.node (urlNode name before contents))
  | divider {mark : Char} {after : List Char} (hmark : mark = ',' ∨ mark = '/' ∨ mark = ':')
      (hafter : ∀ c ∈ after, Text.isWhitespace c = true) (hs : Text.StartsOff Text.isWhitespace s)
      (hstar : mark = '/' → (after ++ s).head? ≠ some '*') :
    Fits nested s (.divider mark after)
  | opening {name before : List Char} (hname : name = [] ∨ WholeWord name ∨
    name = [')'] ∧ nested = false)
      (hbefore : ∀ c ∈ before, Text.isWhitespace c = true) (hs : Text.StartsOff Text.isWhitespace s)
      (hurl : isBareUrl name s = false) :
    Fits nested s (.opening name before)
  | closing (hnested : nested = true) : Fits nested s .closing

theorem lex_word (hc : endsWord c = false) (nested : Bool) (r : List Char) :
    lex nested c r = wordToken (readWord (c :: r)).1 (readWord (c :: r)).2 := by
  have h : Text.isWhitespace c = false ∧ c ≠ '(' ∧ c ≠ ')' ∧ c ≠ ',' ∧ c ≠ '/' ∧ c ≠ ':' ∧
      c ≠ '"' ∧ c ≠ '\'' := by
    simpa [endsWord, not_or, and_assoc] using hc
  obtain ⟨hspace, hopen, hclose, hcomma, hslash, hcolon, hquote, hquote'⟩ := h
  rw [lex, firstWord_of_not_endsWord hc]
  simp [hspace, hopen, hclose, hcomma, hslash, hcolon, hquote, hquote']

theorem lex_wholeWord (hw : WholeWord (c :: w)) (hs : EndsHere s) (nested : Bool) :
    lex nested c (w ++ s) = wordToken (c :: w) s := by
  rw [lex_word (endsWord_of_readWord hw.2.1), ← List.cons_append, readWord_append hw.2.1 hw.2.2,
    hs.readWord_eq, List.append_nil]

theorem lex_paren (s : List Char) : lex false ')' s = wordToken [')'] s := by
  rfl

theorem lex_of_fits {tok : Token} (h : Fits nested s tok) :
    ∃ c t, tok.text ++ s = c :: t ∧ lex nested c t = (tok, s) := by
  cases h with
  | @word w hw hend hs =>
    obtain ⟨c, w, rfl⟩ := List.exists_cons_of_ne_nil hw.1
    refine ⟨c, w ++ s, by simp [Token.text, Node.text], ?_⟩
    rw [lex_wholeWord hw hend, wordToken_of_ne hs]
  | paren hnested hs =>
    subst hnested
    refine ⟨')', s, by simp [Token.text, Node.text], ?_⟩
    rw [lex_paren, wordToken_of_ne hs]
  | @string quote v hquote h =>
    have hread : Text.readQuoted quote (v ++ quote :: s) = (v, s) := by
      have := Text.quoted?_append (by rcases hquote with rfl | rfl <;> decide) h s
      rw [List.append_assoc] at this
      rw [Text.readQuoted, List.append_cons, List.append_assoc, this]
      rfl
    refine ⟨quote, v ++ quote :: s, by simp [Token.text, Node.text], ?_⟩
    rw [lex, if_neg (by rcases hquote with rfl | rfl <;> decide), if_pos hquote, hread]
  | @space w hne hw hs =>
    obtain ⟨c, w, rfl⟩ := List.exists_cons_of_ne_nil hne
    obtain ⟨htake, hdrop⟩ :=
      Text.takeWhile_append_of (fun d hd => hw d (List.mem_cons_of_mem c hd)) hs
    refine ⟨c, w ++ s, by simp [Token.text, Node.text], ?_⟩
    rw [lex, if_pos (hw c List.mem_cons_self), htake, hdrop]
  | @comment v h =>
    have hread : Text.readComment (v ++ '*' :: '/' :: s) = (v, s) := by
      have := Text.comment?_append h s
      rw [List.append_assoc] at this
      rw [Text.readComment]
      simpa using congrArg (·.getD (v ++ '*' :: '/' :: s, [])) this
    refine ⟨'/', '*' :: (v ++ '*' :: '/' :: s), by simp [Token.text, Node.text], ?_⟩
    rw [lex, if_neg (by decide), if_neg (by decide), if_pos ⟨rfl, rfl⟩, List.tail_cons, hread]
  | @url name before contents hname hurl hbefore hcontents h =>
    obtain ⟨c, name, rfl⟩ := List.exists_cons_of_ne_nil hname.1
    have hclosed : Text.quoted? ')' (contents ++ ')' :: s) = some (contents, s) := by
      simpa using Text.quoted?_append (by decide) h s
    refine ⟨c, name ++ '(' ::
      (before ++ (contents ++ ')' :: s)), by simp [Token.text, text_urlNode], ?_⟩
    rw [lex_wholeWord hname (by simp [EndsHere, endsWord]), wordToken, if_pos,
      readUrl_contents hbefore hcontents hclosed]
    rw [isBareUrl_append hbefore]
    exact isBareUrl_contents hurl hcontents s
  | @divider mark after hmark hafter hs hstar =>
    obtain ⟨htake, hdrop⟩ := Text.takeWhile_append_of hafter hs
    refine ⟨mark, after ++ s, rfl, ?_⟩
    rw [lex, if_neg (by rcases hmark with rfl | rfl | rfl <;> decide),
      if_neg (by rcases hmark with rfl | rfl | rfl <;> decide),
      if_neg fun hc => hstar hc.1 hc.2, if_pos hmark, htake, hdrop]
  | @opening name before hname hbefore hs hurl =>
    obtain ⟨htake, hdrop⟩ := Text.takeWhile_append_of hbefore hs
    have hbare : isBareUrl name (before ++ s) = false := by rwa [isBareUrl_append hbefore]
    rcases hname with rfl | hname | ⟨rfl, rfl⟩
    · refine ⟨'(', before ++ s, rfl, ?_⟩
      rw [lex, if_neg (by decide), if_neg (by decide), if_neg fun hc => absurd hc.1 (by decide),
        if_neg (by decide), if_pos rfl,
        htake, hdrop]
    · obtain ⟨c, name, rfl⟩ := List.exists_cons_of_ne_nil hname.1
      refine ⟨c, name ++ '(' :: (before ++ s), by simp [Token.text], ?_⟩
      rw [lex_wholeWord hname (by simp [EndsHere, endsWord]), wordToken,
        if_neg (by simp [hbare]), htake, hdrop]
    · refine ⟨')', '(' :: (before ++ s), rfl, ?_⟩
      rw [lex_paren, wordToken, if_neg (by simp [hbare]), htake, hdrop]
  | closing hnested =>
    subst hnested
    exact ⟨')', s, rfl, rfl⟩

theorem run_of_fits {calls : List OpenCall} {tok : Token} (h : Fits (!calls.isEmpty) s tok)
    (inner : List Node) :
    run (tok.text ++ s) inner calls = run s (tok.inner inner calls) (tok.calls inner calls) := by
  obtain ⟨c, t, htext, hlex⟩ := lex_of_fits h
  rw [htext, run_cons, hlex]

/-! ## Tokens that are read -/

/-- A node that is open at the end of a text and ends in a backslash. -/
inductive Frays : Node → Prop
  | word {w : List Char} (hne : w ≠ []) (hw : readWord w = (w, [])) (hend : Text.dangles w = true) :
    Frays (.word (String.ofList w))
  | string {quote : Char} {v : List Char} (hquote : quote = '"' ∨ quote = '\'')
    (h : Text.quoted? quote v = none)
      (hend : Text.dangles v = true) :
    Frays (.string (String.ofList v) quote)
  | url {name before contents : List Char} (hname : WholeWord name)
    (hurl : name.map Char.toLower = ['u', 'r', 'l'])
      (hbefore : ∀ c ∈ before, Text.isWhitespace c = true) (hcontents : UrlContents contents)
      (h : Text.quoted? ')' contents = none) (hend : Text.dangles contents = true) :
    Frays (urlNode name before contents)

/-- What closes a node that is open at the end of a text. -/
def closers : List (List Char) := [[], ['"'], ['\''], ['*', '/'], [')']]

/-- A token that is read of a text, and the rest. -/
inductive Lexed (nested : Bool) : List Char → Token → List Char → Prop
  | whole {tok : Token} {s : List Char} (h : Fits nested s tok) : Lexed nested (tok.text ++ s) tok s
  | closed {n : Node} {t close : List Char} (htext : n.text.toList = t ++ close)
    (hclose : close ∈ closers)
      (h : ∀ s, Fits nested s (.node n)) : Lexed nested t (.node n) []
  | frayed {n : Node} {t close : List Char} (htext : n.text.toList = t ++ close)
    (hclose : close ∈ closers) (h : Frays n) (hlast : t.getLast? = some '\\') :
    Lexed nested t (.node n) []

theorem Lexed.of_text {tok : Token} {t : List Char} (h : Fits nested s tok)
    (htext : tok.text ++ s = t) : Lexed nested t tok s :=
  htext ▸ .whole h

theorem isWhitespace_of_mem_takeWhile {s : List Char} :
    ∀ c ∈ s.takeWhile Text.isWhitespace, Text.isWhitespace c = true :=
  fun c hc => List.all_eq_true.1 List.all_takeWhile c hc

theorem lexed_url (hname : WholeWord name) (hurl : isBareUrl name s = true) :
    Lexed nested (name ++ '(' :: s) (.node (readUrl name s).1) (readUrl name s).2 := by
  have hlower : name.map Char.toLower = ['u', 'r', 'l'] := by
    simpa using (Bool.and_eq_true_iff.1 hurl).1
  obtain ⟨before, contents, hbefore, hcontents, hnode, ⟨happ, hq⟩ | ⟨happ, hrest, hq⟩⟩ :=
    readUrl_spec hurl
  · rw [hnode]
    apply Lexed.of_text (.url hname hlower hbefore hcontents hq)
    rw [Token.text, text_urlNode]
    conv => rhs; rw [happ]
    simp
  · have htext : (urlNode name before contents).text.toList = (name ++ '(' :: s) ++ [')'] := by
      rw [text_urlNode, happ]
      simp
    rw [hnode, hrest]
    cases hd : Text.dangles contents with
    | false =>
      have hclosed := Text.quoted?_close (by decide) hq hd []
      exact .closed htext (by decide) fun _ => .url hname hlower hbefore hcontents hclosed
    | true =>
      refine .frayed htext (by decide) (.url hname hlower hbefore hcontents hq hd) ?_
      rw [happ, List.append_cons, ← List.append_assoc]
      exact Text.getLast?_append_of_dangles hd _

theorem lexed_opening {name : List Char}
    (hname : name = [] ∨ WholeWord name ∨ name = [')'] ∧ nested = false)
    (hurl : isBareUrl name s = false) :
    Lexed nested (name ++ '(' :: s) (.opening name (s.takeWhile Text.isWhitespace))
      (s.dropWhile Text.isWhitespace) := by
  have hsplit : s.takeWhile Text.isWhitespace ++ s.dropWhile Text.isWhitespace = s :=
    List.takeWhile_append_dropWhile
  have hurl' : isBareUrl name (s.dropWhile Text.isWhitespace) = false := by
    rwa [← isBareUrl_append isWhitespace_of_mem_takeWhile, hsplit]
  apply Lexed.of_text
    (.opening hname isWhitespace_of_mem_takeWhile (Text.startsOff_dropWhile _ s) hurl')
  rw [Token.text, List.append_assoc, List.cons_append, hsplit]

theorem lexed_wordToken {w : List Char} (hw : readWord w = (w, [])) (hne : w ≠ [])
    (hend : EndsHere s)
    (hdangles : Text.dangles w = true → s = []) :
    Lexed nested (w ++ s) (wordToken w s).1 (wordToken w s).2 := by
  by_cases hs : s.head? = some '('
  · obtain ⟨t, rfl⟩ := List.head?_eq_some_iff.1 hs
    have hwhole : WholeWord w := ⟨hne, hw, by simpa using hdangles⟩
    rw [wordToken]
    by_cases hbare : isBareUrl w t = true
    · rw [if_pos hbare]
      exact lexed_url hwhole hbare
    · rw [if_neg hbare]
      exact lexed_opening (.inr (.inl hwhole)) (by simpa using hbare)
  · rw [wordToken_of_ne hs]
    cases hd : Text.dangles w with
    | false => exact .of_text (.word ⟨hne, hw, hd⟩ hend hs) (by simp [Token.text, Node.text])
    | true =>
      obtain rfl := hdangles hd
      have htext : (Node.word (String.ofList w)).text.toList = w ++ [] ++ [] := by simp [Node.text]
      exact .frayed htext (by decide) (.word hne hw hd)
        (by simpa using Text.getLast?_append_of_dangles hd [])

theorem lexed_string {quote : Char} (hquote : quote = '"' ∨ quote = '\'') (r : List Char) :
    Lexed nested (quote :: r) (.node (.string (String.ofList (Text.readQuoted quote r).1) quote))
      (Text.readQuoted quote r).2 := by
  have hmark : quote ≠ '\\' := by rcases hquote with rfl | rfl <;> decide
  have hclose : [quote] ∈ closers := by rcases hquote with rfl | rfl <;> decide
  rw [Text.readQuoted]
  cases hq : Text.quoted? quote r with
  | some p =>
    rw [Option.getD_some]
    apply Lexed.of_text (.string hquote (Text.quoted?_take hmark hq))
    rw [Text.quoted?_eq_some hq]
    simp [Token.text, Node.text]
  | none =>
    rw [Option.getD_none]
    have htext : (Node.string (String.ofList r) quote).text.toList = quote :: r ++ [quote] := by
      simp [Node.text]
    cases hd : Text.dangles r with
    | false =>
      exact .closed htext hclose fun _ => .string hquote (Text.quoted?_close hmark hq hd [])
    | true =>
      exact .frayed htext hclose (.string hquote hq hd)
        (Text.getLast?_append_of_dangles hd [quote])

theorem lexed_comment (r : List Char) :
    Lexed nested ('/' :: '*' :: r) (.node (.comment (String.ofList (Text.readComment r).1)))
      (Text.readComment r).2 := by
  rw [Text.readComment]
  cases hq : Text.comment? r with
  | some p =>
    rw [Option.getD_some]
    apply Lexed.of_text (.comment (Text.comment?_take hq))
    rw [Text.comment?_eq_some hq]
    simp [Token.text, Node.text]
  | none =>
    rw [Option.getD_none]
    have htext : (Node.comment (String.ofList r)).text.toList = '/' :: '*' :: r ++ ['*', '/'] := by
      simp [Node.text]
    exact .closed htext (by decide) fun _ => .comment (Text.comment?_close hq [])

/-- The first token of every text is one of the tokens above. -/
theorem lexed (nested : Bool) (c : Char) (r : List Char) :
    Lexed nested (c :: r) (lex nested c r).1 (lex nested c r).2 := by
  have hsplit : r.takeWhile Text.isWhitespace ++ r.dropWhile Text.isWhitespace = r :=
    List.takeWhile_append_dropWhile
  have hstart := Text.startsOff_dropWhile Text.isWhitespace r
  rw [lex]
  split
  · rename_i hc
    apply Lexed.of_text
      (.space (by simp) (List.forall_mem_cons.2 ⟨hc, isWhitespace_of_mem_takeWhile⟩) hstart)
    simp [Token.text, Node.text, hsplit]
  split
  · rename_i hquote
    exact lexed_string hquote r
  split
  · rename_i hcomment
    obtain ⟨rfl, hr⟩ := hcomment
    obtain ⟨r, rfl⟩ := List.head?_eq_some_iff.1 hr
    exact lexed_comment r
  split
  · rename_i hcomment hmark
    apply Lexed.of_text (.divider hmark isWhitespace_of_mem_takeWhile hstart ?_)
    · rw [Token.text, List.cons_append, hsplit]
    · rintro rfl hr
      exact hcomment ⟨rfl, by rwa [hsplit] at hr⟩
  split
  · rename_i hopen
    subst hopen
    exact lexed_opening (.inl rfl) rfl
  split
  · rename_i hclose
    obtain ⟨rfl, hnested⟩ := hclose
    exact .of_text (.closing hnested) rfl
  · rename_i hspace hquote hcomment hmark hopen hclose
    by_cases hc : c = ')'
    · subst hc
      obtain rfl : nested = false := by simpa using hclose
      by_cases hr : r.head? = some '('
      · obtain ⟨t, rfl⟩ := List.head?_eq_some_iff.1 hr
        have hname : [')'] = [] ∨ WholeWord [')'] ∨ [')'] = [')'] ∧ false = false :=
          .inr (.inr ⟨rfl, rfl⟩)
        exact lexed_opening hname rfl
      · rw [show firstWord ')' r = ([')'], r) from rfl, wordToken_of_ne hr]
        exact .of_text (.paren rfl hr) (by simp [Token.text, Node.text])
    · have hword : endsWord c = false := by simp_all [endsWord]
      obtain ⟨happ, hw, hend, hdangles⟩ := readWord_spec (c :: r)
      rw [firstWord_of_not_endsWord hword]
      have h : Lexed nested _ _ _ := lexed_wordToken hw (readWord_ne_nil hword r) hend hdangles
      rwa [← happ] at h

end CssTheming.Value
