import CssTheming.Proofs.Value.Frayed

/-!
# Values with replaced calls, written and read again

A value in which calls were replaced is written and read again. If every replacement can be read
alone, wherever it stands, what comes back is the value with the calls replaced, up to a backslash
at its end.
-/

namespace CssTheming.Value

variable {function : String} {repl : Node → Node} {nested : Bool} {s s' : List Char} {tok : Token}
  {inner : List Node} {calls : List OpenCall}

/-- A text that a token which stands in front of another text can stand in front of, too: it starts
the same way, closes what ends there, or starts with a word where that one starts with a word or a
parenthesis. -/
def Suits (s s' : List Char) : Prop :=
  s'.head? = s.head? ∨ s = [] ∧ s'.head? = some ')' ∨
    (∃ c, s.head? = some c ∧ (endsWord c = false ∨ c = '(')) ∧ ∃ c, s'.head? = some c ∧
      endsWord c = false ∧ c ≠ '*'

theorem not_special_of_not_endsWord {c : Char} (hc : endsWord c = false) :
    Text.isWhitespace c = false ∧ c ≠ '(' ∧ c ≠ '"' ∧ c ≠ '\'' := by
  have h : Text.isWhitespace c = false ∧ c ≠ '(' ∧ c ≠ ')' ∧ c ≠ ',' ∧ c ≠ '/' ∧ c ≠ ':' ∧
      c ≠ '"' ∧ c ≠ '\'' := by
    simpa [endsWord, not_or, and_assoc] using hc
  exact ⟨h.1, h.2.1, h.2.2.2.2.2.2⟩

theorem Suits.endsHere (h : Suits s s') (hs : EndsHere s) (hparen : s.head? ≠ some '(') :
    EndsHere s' := by
  intro c hc
  rcases h with h | ⟨-, h⟩ | ⟨⟨d, hd, hword | rfl⟩, -⟩
  · exact hs c (h ▸ hc)
  · obtain rfl : ')' = c := by simpa [h] using hc
    rfl
  · rw [hs d hd] at hword
    simp at hword
  · exact absurd hd hparen

theorem Suits.head_ne_paren (h : Suits s s') (hparen : s.head? ≠ some '(') :
    s'.head? ≠ some '(' := by
  rcases h with h | ⟨-, h⟩ | ⟨-, c, hc, hword, -⟩
  · rwa [h]
  · simp [h]
  · rw [hc]
    exact fun heq => (not_special_of_not_endsWord hword).2.1 (Option.some.inj heq)

theorem Suits.head_ne_star (h : Suits s s') (hstar : s.head? ≠ some '*') : s'.head? ≠ some '*' := by
  rcases h with h | ⟨-, h⟩ | ⟨-, c, hc, -, hne⟩
  · rwa [h]
  · simp [h]
  · rw [hc]
    exact fun heq => hne (Option.some.inj heq)

theorem Suits.startsOff (h : Suits s s') (hs : Text.StartsOff Text.isWhitespace s) :
    Text.StartsOff Text.isWhitespace s' := by
  intro c hc
  rcases h with h | ⟨-, h⟩ | ⟨-, d, hd, hword, -⟩
  · exact hs c (h ▸ hc)
  · obtain rfl : ')' = c := by simpa [h] using hc
    rfl
  · obtain rfl : d = c := by simpa [hd] using hc
    exact (not_special_of_not_endsWord hword).1

theorem isBareUrl_eq_head (name : List Char) (hs : Text.StartsOff Text.isWhitespace s) :
    isBareUrl name s =
      (name.map Char.toLower == ['u', 'r', 'l'] && s.head?.all fun c => c ≠ '"' && c ≠ '\'') := by
  have hdrop : s.dropWhile Text.isWhitespace = s :=
    (Text.takeWhile_append_of (s := []) (by simp) hs).2
  rw [isBareUrl, hdrop]
  cases s <;> rfl

theorem Suits.isBareUrl_eq (h : Suits s s') (hs : Text.StartsOff Text.isWhitespace s)
    {name : List Char}
    (hurl : isBareUrl name s = false) : isBareUrl name s' = false := by
  rw [isBareUrl_eq_head name hs] at hurl
  rw [isBareUrl_eq_head name (h.startsOff hs)]
  rcases h with h | ⟨rfl, h⟩ | ⟨⟨c, hc, hword⟩, -⟩
  · rwa [h]
  · simp only [List.head?_nil, Option.all_none, Bool.and_true] at hurl
    rw [hurl]
    rfl
  · have hquote : c ≠ '"' ∧ c ≠ '\'' := by
      rcases hword with hword | rfl
      · exact (not_special_of_not_endsWord hword).2.2
      · decide
    have hall : (s.head?.all fun c => c ≠ '"' && c ≠ '\'') = true := by simp [hc, hquote]
    rw [hall, Bool.and_true] at hurl
    rw [hurl]
    rfl

theorem Fits.suits (h : Fits nested s tok) (hs : Suits s s') : Fits nested s' tok := by
  cases h with
  | word hw hend hparen => exact .word hw (hs.endsHere hend hparen) (hs.head_ne_paren hparen)
  | paren hnested hparen => exact .paren hnested (hs.head_ne_paren hparen)
  | string hquote h => exact .string hquote h
  | space hne hw hstart => exact .space hne hw (hs.startsOff hstart)
  | comment h => exact .comment h
  | url hname hurl hbefore hcontents h => exact .url hname hurl hbefore hcontents h
  | @divider mark after hmark hafter hstart hstar =>
    refine .divider hmark hafter (hs.startsOff hstart) fun hm => ?_
    cases after with
    | nil => exact hs.head_ne_star (hstar hm)
    | cons c after => exact hstar hm
  | opening hname hbefore hstart hurl =>
    exact .opening hname hbefore (hs.startsOff hstart) (hs.isBareUrl_eq hstart hurl)
  | closing hnested => exact .closing hnested

/-! ## Replacements -/

/-- A node that is read from its own text, whatever stands behind it. -/
def Alone (nested : Bool) (n : Node) : Prop :=
  ∀ (s : List Char) (inner : List Node) (calls : List OpenCall), (!calls.isEmpty) = nested →
    run (n.text.toList ++ s) inner calls = run s (n :: inner) calls

/-- A node that can take the place of a call of the function. -/
structure Replaces (function : String) (n : Node) : Prop where
  alone : ∀ nested, (function = ")" → nested = false) → Alone nested n
  head : n.text.toList.head? = (function.toList ++ ['(']).head? ∨
    function ≠ ")" ∧ ∃ c, n.text.toList.head? = some c ∧ endsWord c = false ∧ c ≠ '*'

/-- A word can stand in the place of a call, if the call does not begin with a parenthesis that
closes nothing. -/
theorem CallAt.suits_word {n : Node} (h : CallAt function nested s n) (hfunction : function ≠ ")")
    {c : Char} (hc : s'.head? = some c) (hword : endsWord c = false) (hstar : c ≠ '*') :
    Suits s s' := by
  refine .inr (.inr ⟨?_, c, hc, hword, hstar⟩)
  rcases h.name with hname | hname | ⟨hname, -⟩
  · exact ⟨'(', by rw [h.head, hname]; rfl, .inr rfl⟩
  · obtain ⟨d, w, hd⟩ := List.exists_cons_of_ne_nil hname.1
    rw [hd] at hname
    exact ⟨d, by rw [h.head, hd]; rfl, .inl (endsWord_of_readWord hname.2.1)⟩
  · exact absurd hname hfunction

theorem CallAt.suits {n m : Node} (h : CallAt function nested s n) (hm : Replaces function m)
    (t : List Char) :
    Suits s (m.text.toList ++ t) := by
  rcases hm.head with hhead | ⟨hfunction, c, hc, hword, hstar⟩
  · refine .inl ?_
    rw [h.head, List.head?_append, hhead]
    cases function.toList <;> rfl
  · exact h.suits_word hfunction (by rw [List.head?_append, hc]; rfl) hword hstar

theorem CallAt.nested_eq_false {n : Node} (h : CallAt function nested s n)
    (hfunction : function = ")") : nested = false := by
  subst hfunction
  rcases h.name with hname | hname | ⟨-, hnested⟩
  · exact absurd hname (by decide)
  · exact absurd (endsWord_of_readWord (c := ')') (w := []) hname.2.1) (by decide)
  · exact hnested

/-- A call of the function among the nodes that have been read. -/
def IsOpen (function : String) (inner : List Node) (calls : List OpenCall) (n : Node) : Prop :=
  n ∈ callsOf function inner ∨ ∃ f ∈ calls, n ∈ callsOf function f.outer

theorem callsOf_splitSpace (inner : List Node) :
    callsOf function (splitSpace inner).2 = callsOf function inner := by
  rw [splitSpace.eq_def]
  split <;> rfl

theorem mem_callsOf_reverse {n : Node} {ns : List Node} :
    n ∈ callsOf function ns.reverse ↔ n ∈ callsOf function ns := by
  simp [mem_callsOf]

theorem isOpen_close {f : OpenCall} (hf : f.name ≠ function) {inner : List Node}
    {calls : List OpenCall} {n : Node} :
    IsOpen function (f.close inner) calls n ↔ IsOpen function inner (f :: calls) n := by
  rw [IsOpen, IsOpen, OpenCall.close, callsOf, List.mem_append, Node.callsOf, if_neg hf,
    mem_callsOf_reverse, callsOf_splitSpace, or_assoc]
  simp only [List.mem_cons, exists_eq_or_imp]

/-- A token that is no call of the function leaves those that were read before. -/
theorem Token.Plain.isOpen_iff (htok : tok.Plain function)
    (hcalls : ∀ f ∈ calls, f.name ≠ function) {n : Node} :
    IsOpen function (tok.inner inner calls) (tok.calls inner calls) n ↔
      IsOpen function inner calls n := by
  cases tok with
  | node m =>
    have hm : m.callsOf function = [] := htok.1
    rw [IsOpen, IsOpen, Token.inner, callsOf, hm, List.nil_append]
    rfl
  | divider mark after =>
    rw [IsOpen, IsOpen, Token.inner, callsOf, callsOf_splitSpace, Node.callsOf, List.nil_append]
    · rfl
    · simp
  | opening name before =>
    rw [IsOpen, IsOpen, Token.inner, Token.calls]
    simp [callsOf]
  | closing =>
    cases calls with
    | nil => rfl
    | cons f fs => exact isOpen_close (hcalls f List.mem_cons_self)

theorem mem_callsOf_closeAll (hcalls : ∀ f ∈ calls, f.name ≠ function) {n : Node} :
    n ∈ callsOf function (closeAll inner calls) ↔ IsOpen function inner calls n := by
  induction calls generalizing inner with
  | nil => simp [closeAll, IsOpen, mem_callsOf_reverse]
  | cons f fs ih =>
    rw [closeAll, ih fun g hg => hcalls g (List.mem_cons_of_mem f hg),
      isOpen_close (hcalls f List.mem_cons_self)]

/-- No call of the function is lost while reading goes on. -/
theorem mem_callsOf_run (hcalls : ∀ f ∈ calls, f.name ≠ function) {n : Node}
    (h : IsOpen function inner calls n) :
    n ∈ callsOf function (run s inner calls) := by
  revert h
  refine run_induction function (motive := fun s inner calls => IsOpen function inner calls n →
    n ∈ callsOf function (run s inner calls))
    ?_ ?_ ?_ s inner calls hcalls
  · intro inner calls hcalls h
    rw [run_nil]
    exact (mem_callsOf_closeAll hcalls).2 h
  · intro s tok rest inner calls hcalls _ _ htok hrun ih h
    rw [hrun]
    exact ih ((htok.isOpen_iff hcalls).2 h)
  · intro s m rest inner calls hcalls _ _ hrun ih h
    rw [hrun]
    exact ih (h.imp_left fun h => List.mem_append_right _ h)

theorem CallAt.mem_run {n : Node} (h : CallAt function nested s n)
    (hcalls : ∀ f ∈ calls, f.name ≠ function) (rest : List Char) :
    n ∈ callsOf function (run rest (n :: inner) calls) := by
  obtain ⟨before, after, args, rfl⟩ := h.eq
  apply mem_callsOf_run hcalls
  refine .inl ?_
  rw [callsOf, Node.callsOf, if_pos rfl]
  exact List.mem_append_left _ List.mem_cons_self

/-! ## Writing and reading again -/

theorem suits_text_append {rest : List Char} (h : Lexed nested s tok rest) (hs : s ≠ [])
    (t : List Char) :
    Suits s (tok.text ++ t) := by
  obtain ⟨c, u, hcu⟩ := List.exists_cons_of_ne_nil (h.text_ne_nil hs)
  refine .inl ?_
  rw [h.head_eq hs, hcu]
  rfl

/-- The text of what is read of `s` in the place of calls that were replaced goes on from the open
text with `t`, and `t` is read as what `ns` becomes. -/
structure Rewrites (function : String) (repl : Node → Node) (s : List Char) (inner : List Node)
    (calls : List OpenCall) (t : List Char) (ns : List Node) : Prop where
  suits : Suits s t
  text_eq : (text (replaceCalls function repl (run s inner calls))).toList =
    openText (replaceCalls function repl inner)
      (calls.map (OpenCall.replaceCalls function repl)) ++ t
  same : SameButEnd function (run s inner calls) ns
  run_eq : run t (replaceCalls function repl inner)
    (calls.map (OpenCall.replaceCalls function repl)) = replaceCalls function repl ns

section Rewrites

variable {ns : List Node} {rest : List Char} (hkeeps : KeepsCalls repl)
  (hcalls : ∀ f ∈ calls, f.name ≠ function)
include hkeeps hcalls

/-- At the end the open calls are closed by parentheses. -/
theorem rewrites_nil (inner : List Node) :
    Rewrites function repl [] inner calls (List.replicate calls.length ')')
      (closeAll inner calls) := by
  refine ⟨?_, ?_, .inl (run_nil inner calls).symm, ?_⟩
  · cases calls with
    | nil => exact .inl rfl
    | cons f fs => exact .inr (.inl ⟨rfl, rfl⟩)
  · rw [run_nil, closeAll_replaceCalls hkeeps hcalls, text_closeAll, List.length_map]
  · rw [closeAll_replaceCalls hkeeps hcalls, run_parens (Nat.le_of_eq (List.length_map _).symm)]

/-- A token that is read adds its text to what calls become, too. -/
theorem Token.Plain.openText_replaceCalls (htok : tok.Plain function)
    (hclosing : tok = .closing → calls ≠ []) (inner : List Node) :
    openText (replaceCalls function repl (tok.inner inner calls))
        ((tok.calls inner calls).map (OpenCall.replaceCalls function repl)) =
      openText (replaceCalls function repl inner)
        (calls.map (OpenCall.replaceCalls function repl)) ++ tok.text := by
  rw [Token.inner_replaceCalls hkeeps htok hcalls, Token.calls_replaceCalls,
    openText_token fun hc => by simpa using hclosing hc]

/-- A token in front of what suits its rest is read again. -/
theorem Rewrites.token (h : Rewrites function repl rest (tok.inner inner calls)
      (tok.calls inner calls) s' ns)
    (hs : s ≠ []) (hlexed : Lexed (!calls.isEmpty) s tok rest) (htok : tok.Plain function)
    (hrun : run s inner calls = run rest (tok.inner inner calls) (tok.calls inner calls))
    (hfits : Fits (!calls.isEmpty) s' tok) :
    Rewrites function repl s inner calls (tok.text ++ s') ns := by
  refine ⟨suits_text_append hlexed hs s', ?_, hrun ▸ h.same, ?_⟩
  · rw [hrun, h.text_eq, htok.openText_replaceCalls hkeeps hcalls hlexed.calls_of_closing,
      List.append_assoc]
  · rw [run_of_fits (by simpa using hfits), ← h.run_eq, Token.inner_replaceCalls hkeeps htok hcalls,
      Token.calls_replaceCalls]

/-- A token that the end of the text cuts off is closed first. -/
theorem rewrites_frayed {n : Node} (hs : s ≠ []) (hlexed : Lexed (!calls.isEmpty) s (.node n) [])
    (hn : n.Plain function) (hfrays : Frays n)
    (hrun : run s inner calls = run [] (n :: inner) calls) :
    ∃ t ns, Rewrites function repl s inner calls t ns := by
  obtain ⟨n', hn', hplain, hread⟩ := run_of_frays hfrays hn (replaceCalls function repl inner)
    (calls.map (OpenCall.replaceCalls function repl))
  refine ⟨_, closeAll (n' :: inner) calls, suits_text_append hlexed hs _, ?_, ?_, hread.trans ?_⟩
  · rw [hrun, run_nil, closeAll_replaceCalls hkeeps hcalls, text_closeAll, replaceCalls, hn.2,
      openText_cons, List.append_assoc]
    rfl
  · rw [hrun, run_nil]
    rcases hn' with rfl | hn'
    · exact .inl rfl
    · exact hn'.closeAll hcalls inner
  · rw [closeAll_replaceCalls hkeeps hcalls, replaceCalls, hplain.2]

omit hkeeps hcalls in
theorem Rewrites.call {n : Node} (h : Rewrites function repl rest (n :: inner) calls s' ns)
    (hcall : CallAt function (!calls.isEmpty) s n) (hn : Replaces function (repl n))
    (hrun : run s inner calls = run rest (n :: inner) calls) :
    Rewrites function repl s inner calls ((repl n).text.toList ++ s') ns := by
  have hreplace : n.replaceCalls function repl = repl n := by
    obtain ⟨before, after, args, rfl⟩ := hcall.eq
    rw [Node.replaceCalls, if_pos rfl]
  refine ⟨hcall.suits hn s', ?_, hrun ▸ h.same, ?_⟩
  · rw [hrun, h.text_eq, replaceCalls, hreplace, openText_cons, List.append_assoc]
  · rw [hn.alone (!calls.isEmpty) hcall.nested_eq_false s' _ _ (by simp), ← h.run_eq, replaceCalls,
      hreplace]

end Rewrites

/-- What is read next, with its calls replaced, has a text that suits the place and is read as what
was written. -/
theorem run_replaceCalls (hkeeps : KeepsCalls repl) (s : List Char) (inner : List Node)
    (calls : List OpenCall) (hcalls : ∀ f ∈ calls, f.name ≠ function)
    (hrepl : ∀ n ∈ callsOf function (run s inner calls), Replaces function (repl n)) :
    ∃ t ns, Rewrites function repl s inner calls t ns := by
  revert hrepl
  refine run_induction function (motive := fun s inner calls =>
    (∀ n ∈ callsOf function (run s inner calls), Replaces function (repl n)) →
      ∃ t ns, Rewrites function repl s inner calls t ns) ?_ ?_ ?_ s inner calls hcalls
  · exact fun inner calls hcalls _ => ⟨_, _, rewrites_nil hkeeps hcalls inner⟩
  · intro s tok rest inner calls hcalls hs hlexed htok hrun ih hrepl
    rw [hrun] at hrepl
    obtain ⟨s', ns, h⟩ := ih hrepl
    have hagain : Fits (!calls.isEmpty) s' tok → ∃ t ns, Rewrites function repl s inner calls t ns :=
      fun hfits => ⟨_, ns, h.token hkeeps hcalls hs hlexed htok hrun hfits⟩
    have hlexed' := hlexed
    cases hlexed with
    | whole hfits => exact hagain (hfits.suits h.suits)
    | closed _ _ hfits => exact hagain (hfits s')
    | frayed _ _ hfrays => exact rewrites_frayed hkeeps hcalls hs hlexed' htok hfrays hrun
  · intro s n rest inner calls hcalls hcall _ hrun ih hrepl
    rw [hrun] at hrepl
    obtain ⟨s', ns, h⟩ := ih hrepl
    exact ⟨_, ns, h.call hcall (hrepl n (hcall.mem_run hcalls rest)) hrun⟩

/-- A value whose calls of a function were replaced, written and read again. -/
theorem parse_text_replaceCalls (hkeeps : KeepsCalls repl) (v : String)
    (hrepl : ∀ n ∈ callsOf function (parse v), Replaces function (repl n)) :
    ∃ ns, SameButEnd function (parse v) ns ∧
      parse (text (replaceCalls function repl (parse v))) = replaceCalls function repl ns := by
  obtain ⟨t, ns, h⟩ := run_replaceCalls hkeeps v.toList [] [] (by simp) hrepl
  refine ⟨ns, h.same, ?_⟩
  rw [parse, parse, h.text_eq]
  exact h.run_eq

end CssTheming.Value
