import CssTheming.Proofs.Value.Calls

/-!
# Values that end in a backslash

A node that is open at the end of a value and ends in a backslash does not come back: what closes it
is taken in by the backslash. Nothing in front of that node changes, and the calls around it are
closed as before.
-/

namespace CssTheming.Value

variable {function : String} {inner : List Node} {calls : List OpenCall}

/-- The last node of a value and what it may become when it is written and read again. -/
inductive Frayed (function : String) : Node → Node → Prop
  | word {w : List Char} (hw : readWord w = (w, [])) (hend : Text.dangles w = true) :
    Frayed function (.word (String.ofList w)) (.word (String.ofList (w ++ [')'])))
  | string (v v' : String) (quote : Char) : Frayed function (.string v quote) (.string v' quote)
  | url {name : List Char} (hname : String.ofList name ≠ function)
    (hurl : name.map Char.toLower = ['u', 'r', 'l'])
      (before contents contents' : List Char) :
    Frayed function (urlNode name before contents) (urlNode name before contents')
  | call {name : String} (hname : name ≠ function) (before after : String)
    (args : List Node) {n n' : Node}
      (h : Frayed function n n') (key : Option String) :
    Frayed function (.call name before after (args ++ [n]) key)
      (.call name before after (args ++ [n']) key)

/-- Values that are the same up to the node at their end. -/
def SameButEnd (function : String) (ns ns' : List Node) : Prop :=
  ns' = ns ∨ ∃ ms n n', Frayed function n n' ∧ ns = ms ++ [n] ∧ ns' = ms ++ [n']

theorem Frayed.ne_space {n n' : Node} (h : Frayed function n n') : (∀ v, n ≠ .space v) ∧
    ∀ v, n' ≠ .space v := by
  cases h <;> simp [urlNode]

theorem Frayed.close {n n' : Node} (h : Frayed function n n') {f : OpenCall}
    (hf : f.name ≠ function) (inner : List Node) :
    ∃ m m', Frayed function m m' ∧ f.close (n :: inner) = m :: f.outer ∧
      f.close (n' :: inner) = m' :: f.outer := by
  refine ⟨_, _, .call hf f.before "" inner.reverse h none, ?_, ?_⟩
  · rw [OpenCall.close, splitSpace_of_ne h.ne_space.1, List.reverse_cons]
  · rw [OpenCall.close, splitSpace_of_ne h.ne_space.2, List.reverse_cons]

theorem Frayed.closeAll {n n' : Node} (h : Frayed function n n')
    (hcalls : ∀ f ∈ calls, f.name ≠ function)
    (inner : List Node) :
    SameButEnd function (closeAll (n :: inner) calls) (closeAll (n' :: inner) calls) := by
  induction calls generalizing n n' inner with
  | nil => exact .inr ⟨inner.reverse, n, n', h, by simp [Value.closeAll], by simp [Value.closeAll]⟩
  | cons f fs ih =>
    obtain ⟨m, m', hm, hclose, hclose'⟩ := h.close (hcalls f List.mem_cons_self) inner
    rw [Value.closeAll, Value.closeAll, hclose, hclose']
    exact ih hm (fun g hg => hcalls g (List.mem_cons_of_mem f hg)) f.outer

theorem Frayed.callsOf_eq {n n' : Node} (h : Frayed function n n') : n'.callsOf function =
    n.callsOf function := by
  induction h with
  | word => rfl
  | string => rfl
  | url hname _ before contents contents' =>
    rw [(plain_urlNode hname before contents).1, (plain_urlNode hname before contents').1]
  | call hname before after args _ key ih =>
    rw [Node.callsOf, Node.callsOf, if_neg hname, if_neg hname, callsOf_append, callsOf_append]
    simp [callsOf, ih]

theorem SameButEnd.callsOf_eq {ns ns' : List Node} (h : SameButEnd function ns ns') :
    callsOf function ns' = callsOf function ns := by
  rcases h with rfl | ⟨ms, n, n', hn, rfl, rfl⟩
  · rfl
  · simp [callsOf_append, callsOf, hn.callsOf_eq]

/-! ## Reading what was written -/

/-- Parentheses at the end close calls as the end does. -/
theorem run_parens {k : Nat} (hk : k ≤ calls.length) (inner : List Node) :
    run (List.replicate k ')') inner calls = closeAll inner calls := by
  induction k generalizing inner calls with
  | zero => exact run_nil inner calls
  | succ k ih =>
    cases calls with
    | nil => simp at hk
    | cons f fs =>
      have hclosing : Fits (!(f :: fs).isEmpty) (List.replicate k ')') .closing := .closing rfl
      have := run_of_fits hclosing inner
      rw [List.replicate_succ]
      refine this.trans (ih (Nat.le_of_succ_le_succ hk) (f.close inner))

theorem readWord_of_dangles {w : List Char} (hw : readWord w = (w, []))
    (hend : Text.dangles w = true) (d : Char) (u : List Char) :
    readWord (w ++ d :: u) = (w ++ d :: (readWord u).1, (readWord u).2) := by
  fun_induction readWord w with
  | case1 => simp [Text.dangles] at hend
  | case2 e r v rest h ih =>
    rw [h] at ih
    obtain ⟨rfl, rfl⟩ : v = r ∧ rest = [] := by simpa using hw
    rw [List.cons_append, List.cons_append, readWord_escape, ih rfl hend]
    rfl
  | case3 => simp at hw
  | case4 c r hne hc v rest h ih =>
    rw [h] at ih
    obtain ⟨rfl, rfl⟩ : v = r ∧ rest = [] := by simpa using hw
    by_cases hescape : c = '\\'
    · subst hescape
      obtain rfl : v = [] := by
        rcases Text.eq_nil_of_not_escape hne with hescape | hv
        · exact absurd rfl hescape
        · exact hv
      rfl
    · rw [Text.dangles_cons_of_ne hescape] at hend
      rw [List.cons_append, readWord_cons_of_ne hescape, if_neg hc, ih rfl hend]
      rfl

theorem readWord_parens (k : Nat) :
    readWord (List.replicate k ')') = ([], List.replicate k ')') := by
  cases k with
  | zero => rfl
  | succ k => exact readWord_cons_of_ne (by decide) _

theorem head?_parens (k : Nat) : (List.replicate k ')').head? ≠ some '(' := by
  cases k <;> simp [List.replicate_succ]

theorem quoted?_parens {quote : Char} (hquote : quote ≠ ')') (k : Nat) :
    Text.quoted? quote (List.replicate k ')') = none := by
  induction k with
  | zero => rfl
  | succ k ih =>
    rw [List.replicate_succ, Text.quoted?_cons_of_ne (by decide), if_neg fun h => hquote h.symm, ih]
    rfl

theorem run_word_of_dangles {c : Char} {r : List Char} (hw : readWord (c :: r) = (c :: r, []))
    (hend : Text.dangles (c :: r) = true) (k : Nat) (inner : List Node) (calls : List OpenCall) :
    run (c :: r ++ ')' :: List.replicate k ')') inner calls =
      run (List.replicate k ')') (.word (String.ofList (c :: r ++ [')'])) :: inner) calls := by
  rw [List.cons_append, run_cons, lex_word (endsWord_of_readWord hw), ← List.cons_append,
    readWord_of_dangles hw hend,
    readWord_parens, wordToken_of_ne (head?_parens k)]
  rfl

theorem run_string_of_dangles {quote : Char} {v : List Char} (hquote : quote = '"' ∨ quote = '\'')
    (h : Text.quoted? quote v = none) (hend : Text.dangles v = true) (k : Nat) (inner : List Node)
    (calls : List OpenCall) :
    run (quote :: (v ++ quote :: List.replicate k ')')) inner calls =
      closeAll (.string (String.ofList (v ++ quote :: List.replicate k ')')) quote :: inner)
        calls := by
  have hopen : Text.quoted? quote (v ++ quote :: List.replicate k ')') = none := by
    rw [Text.quoted?_of_dangles h hend, quoted?_parens (by rcases hquote with rfl | rfl <;> decide)]
    rfl
  rw [run_cons, lex, if_neg (by rcases hquote with rfl | rfl <;> decide), if_pos hquote,
    Text.readQuoted, hopen]
  exact run_nil _ calls

theorem readQuoted_of_dangles {v : List Char} (h : Text.quoted? ')' v = none)
    (hend : Text.dangles v = true) (k : Nat) :
    Text.readQuoted ')'
      (v ++ ')' :: List.replicate k ')') = (v ++ [')'], List.replicate (k - 1) ')') := by
  rw [Text.readQuoted, Text.quoted?_of_dangles h hend]
  cases k with
  | zero => rfl
  | succ k =>
    rw [List.replicate_succ, Text.quoted?_cons_of_ne (by decide), if_pos rfl]
    rfl

theorem run_url_of_dangles {name before contents : List Char} (hname : WholeWord name)
    (hurl : name.map Char.toLower = ['u', 'r', 'l'])
    (hbefore : ∀ c ∈ before, Text.isWhitespace c = true)
    (hcontents : UrlContents contents) (h : Text.quoted? ')' contents = none)
    (hend : Text.dangles contents = true) (k : Nat)
    (inner : List Node) (calls : List OpenCall) :
    run (name ++ '(' :: (before ++ (contents ++ ')' :: List.replicate k ')'))) inner calls =
      run (List.replicate (k - 1) ')')
        (urlNode name before (contents ++ [')']) :: inner) calls := by
  obtain ⟨c, name, rfl⟩ := List.exists_cons_of_ne_nil hname.1
  have hbare : isBareUrl (c :: name) (before ++ (contents ++ ')' :: List.replicate k ')')) =
      true := by
    rw [isBareUrl_append hbefore]
    exact isBareUrl_contents hurl hcontents _
  have hread : readUrl (c :: name) (before ++ (contents ++ ')' :: List.replicate k ')')) =
      (urlNode (c :: name) before (contents ++ [')']), List.replicate (k - 1) ')') := by
    obtain ⟨htake, hdrop⟩ :=
      Text.takeWhile_append_of hbefore (startsOff_contents hcontents (List.replicate k ')'))
    rw [readUrl, htake, hdrop, readQuoted_of_dangles h hend]
    rfl
  rw [List.cons_append, run_cons, lex_wholeWord hname (by simp [EndsHere, endsWord]), wordToken,
    if_pos hbare, hread]
  rfl

/-- A node that frays is closed and read again with the calls around it. -/
theorem run_of_frays {n : Node} (h : Frays n) (hn : n.Plain function) (inner : List Node)
    (calls : List OpenCall) :
    ∃ n', (n' = n ∨ Frayed function n n') ∧ n'.Plain function ∧
      run (n.text.toList ++ List.replicate calls.length ')') inner calls =
        closeAll (n' :: inner) calls := by
  cases h with
  | @word w hne hw hend =>
    obtain ⟨c, r, rfl⟩ := List.exists_cons_of_ne_nil hne
    cases calls with
    | nil =>
      refine ⟨_, .inl rfl, hn, ?_⟩
      rw [Node.text, String.toList_ofList, List.length_nil, List.replicate_zero,
        List.append_nil, run_cons,
        lex_word (endsWord_of_readWord hw), hw, wordToken_of_ne (by simp)]
      exact run_nil _ []
    | cons f fs =>
      refine ⟨_, .inr (.word hw hend), ⟨rfl, fun _ => rfl⟩, ?_⟩
      rw [Node.text, String.toList_ofList, List.length_cons, List.replicate_succ,
        run_word_of_dangles hw hend]
      exact run_parens (Nat.le_succ _) _
  | @string quote v hquote h hend =>
    refine ⟨.string (String.ofList (v ++ quote :: List.replicate calls.length ')')) quote,
      .inr (.string _ _ _),
      ⟨rfl, fun _ => rfl⟩, ?_⟩
    rw [← run_string_of_dangles hquote h hend]
    simp [Node.text]
  | @url name before contents hname hurl hbefore hcontents h hend =>
    have hfunction : String.ofList name ≠ function := by
      intro hfunction
      have := hn.1
      rw [urlNode, Node.callsOf, if_pos hfunction] at this
      simp at this
    refine ⟨urlNode name before (contents ++ [')']), .inr (.url hfunction hurl before _ _),
      plain_urlNode hfunction _ _, ?_⟩
    have := run_url_of_dangles hname hurl hbefore hcontents h hend calls.length inner calls
    rw [run_parens (Nat.sub_le _ 1)] at this
    rw [text_urlNode, ← this]
    simp

end CssTheming.Value
