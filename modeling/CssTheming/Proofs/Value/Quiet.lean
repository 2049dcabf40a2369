import CssTheming.Proofs.Value.Unclosed
import Mathlib.Data.List.Induction

/-!
# Values whose calls are gone

A value in which every call of a function became a call of another one, with nothing but words in
it, has no call of the function left and is read as it is written. What the new call is called may
run together with the word in front of it; the name that comes of it is another one still.
-/

namespace CssTheming.Value

variable {function : String} {nested : Bool} {k : Nat} {s t w name arg : List Char} {tok : Token}
  {inner : List Node} {calls : List OpenCall}

/-! ## Words and white space -/

/-- A text that is read as words and white space, whatever stands behind it. -/
inductive Wordy : List Char → Prop
  | nil : Wordy []
  | char {c : Char} {w : List Char}
    (hc : Text.isWhitespace c = true ∨ endsWord c = false ∧ c ≠ '\\') (h : Wordy w) : Wordy (c :: w)
  | escape {c : Char} {w : List Char} (h : Wordy w) : Wordy ('\\' :: c :: w)

theorem Wordy.append (hw : Wordy w) (hs : Wordy s) : Wordy (w ++ s) := by
  induction hw with
  | nil => exact hs
  | char hc _ ih => exact .char hc ih
  | escape _ ih => exact .escape ih

theorem Wordy.dropWhile (h : Wordy w) : Wordy (w.dropWhile Text.isWhitespace) := by
  induction h with
  | nil => exact .nil
  | @char c w hc h ih =>
    rw [List.dropWhile_cons]
    split
    · exact ih
    · exact .char hc h
  | escape h => exact .escape h

/-- A word in such a text ends in front of white space. -/
theorem Wordy.behindWord (h : Wordy w) :
    Text.dangles (readWord w).1 = false ∧ Wordy (readWord w).2 ∧
      ∀ c ∈ (readWord w).2.head?, Text.isWhitespace c = true := by
  induction h with
  | nil =>
    rw [show readWord [] = ([], []) from rfl]
    exact ⟨rfl, .nil, by simp⟩
  | @char c w hc h ih =>
    have hescape : c ≠ '\\' := by
      rcases hc with hc | hc
      · rintro rfl
        exact absurd hc (by decide)
      · exact hc.2
    rw [readWord_cons_of_ne hescape]
    split
    · rename_i hends
      have hspace : Text.isWhitespace c = true := by simpa [hends] using hc
      exact ⟨rfl, .char hc h, by simpa using hspace⟩
    · rw [Text.dangles_cons_of_ne hescape]
      exact ih
  | escape h ih => exact ih

/-- Inside of a call the words and the white space are read one after the other. -/
theorem Wordy.run_eq (hw : Wordy w) (function : String) (s : List Char) (inner : List Node) (f : OpenCall)
    (calls : List OpenCall) :
    ∃ ns, run (w ++ ')' :: s) inner (f :: calls) = run (')' :: s) (ns ++ inner) (f :: calls) ∧
      (text ns.reverse).toList = w ∧ callsOf function ns = [] := by
  induction hlen : w.length using Nat.strongRecOn generalizing w inner with
  | ind n ih =>
    subst hlen
    cases w with
    | nil => exact ⟨[], rfl, rfl, rfl⟩
    | cons c r =>
      -- One token is read, and the rest by induction.
      have hstep : ∀ (v rest : List Char) (m : Node), c :: r = v ++ rest → v ≠ [] → Wordy rest →
          m.text.toList = v → m.callsOf function = [] → Fits true (rest ++ ')' :: s) (.node m) →
          ∃ ns, run (c :: r ++ ')' :: s) inner (f :: calls) =
            run (')' :: s) (ns ++ inner) (f :: calls) ∧
            (text ns.reverse).toList = c :: r ∧ callsOf function ns = [] := by
        intro v rest m happ hne hrest htext hcalls hfits
        have hlt : rest.length < (c :: r).length := by
          have := List.length_pos_iff.2 hne
          rw [happ, List.length_append]
          omega
        obtain ⟨ns, hrun, hns, hnone⟩ := ih _ hlt hrest (m :: inner) rfl
        have hfits' : Fits (!(f :: calls).isEmpty) (rest ++ ')' :: s) (.node m) := hfits
        refine ⟨ns ++ [m], ?_, ?_, ?_⟩
        · have := run_of_fits hfits' inner
          rw [happ, List.append_assoc, ← htext]
          rw [List.append_assoc]
          exact this.trans hrun
        · rw [List.reverse_append, List.reverse_singleton, List.singleton_append, text,
            String.toList_append, hns, htext, happ]
        · rw [callsOf_append, hnone, callsOf, hcalls]
          rfl
      by_cases hc : Text.isWhitespace c = true
      · have hsplit : (c :: r).takeWhile Text.isWhitespace ++ (c :: r).dropWhile Text.isWhitespace =
            c :: r := List.takeWhile_append_dropWhile
        have hne : (c :: r).takeWhile Text.isWhitespace ≠ [] := by simp [hc]
        refine hstep _ _ (.space (String.ofList ((c :: r).takeWhile Text.isWhitespace))) hsplit.symm
          hne hw.dropWhile (by simp [Node.text]) rfl
          (.space hne isWhitespace_of_mem_takeWhile ?_)
        have hstart := Text.startsOff_dropWhile Text.isWhitespace (c :: r)
        intro d hd
        cases hdrop : (c :: r).dropWhile Text.isWhitespace with
        | nil =>
          rw [hdrop] at hd
          obtain rfl : ')' = d := by simpa using hd
          rfl
        | cons e u =>
          rw [hdrop] at hd hstart
          exact hstart d hd
      · have hword : endsWord c = false := by
          cases hw with
          | char hc' => exact (hc'.resolve_left hc).1
          | escape => rfl
        obtain ⟨happ, hread, hends, -⟩ := readWord_spec (c :: r)
        obtain ⟨hdangles, hrest, hspace⟩ := hw.behindWord
        refine hstep _ _ (.word (String.ofList (readWord (c :: r)).1)) happ
          (readWord_ne_nil hword r) hrest (by simp [Node.text]) rfl
          (.word ⟨readWord_ne_nil hword r, hread, hdangles⟩ ?_ ?_)
        · cases hnext : (readWord (c :: r)).2 with
          | nil =>
            intro d hd
            obtain rfl : ')' = d := by simpa using hd
            rfl
          | cons e u =>
            rw [hnext] at hends
            exact hends
        · cases hnext : (readWord (c :: r)).2 with
          | nil => simp
          | cons e u =>
            rw [hnext] at hspace
            intro he
            obtain rfl : e = '(' := by simpa using he
            exact absurd (hspace '(' rfl) (by decide)

/-! ## Quiet texts -/

/-- Reading on with a text inside of so many calls adds the text as it is, and no call of the
function. -/
structure Quiet (function : String) (k : Nat) (t : List Char) : Prop where
  text_eq : ∀ inner calls, calls.length = k →
    (text (run t inner calls)).toList = openText inner calls ++ t
  isOpen : ∀ inner calls, calls.length = k → (∀ f ∈ calls, f.name ≠ function) →
    ∀ n ∈ callsOf function (run t inner calls), IsOpen function inner calls n

theorem quiet_parens (function : String) (k : Nat) :
    Quiet function k (List.replicate k ')') := by
  refine ⟨fun inner calls hk => ?_, fun inner calls hk hcalls n hn => ?_⟩
  · rw [run_parens (Nat.le_of_eq hk.symm), text_closeAll, hk]
  · rw [run_parens (Nat.le_of_eq hk.symm)] at hn
    exact (mem_callsOf_closeAll hcalls).1 hn

theorem Quiet.token (h : Quiet function (tok.depth k) t) (hnested : nested = true ↔ k ≠ 0)
    (htok : tok.Plain function) (hfits : Fits nested t tok) : Quiet function k (tok.text ++ t) := by
  have hfits' : ∀ calls : List OpenCall, calls.length = k → Fits (!calls.isEmpty) t tok := by
    intro calls hk
    have hcalls : (!calls.isEmpty) = nested := by
      rw [Bool.eq_iff_iff, hnested, ← hk]
      cases calls <;> simp
    rwa [hcalls]
  refine ⟨fun inner calls hk => ?_, fun inner calls hk hcalls n hn => ?_⟩
  · have hclosing : tok = .closing → calls ≠ [] := by
      rintro rfl rfl
      cases hfits with
      | closing hopen => exact hnested.1 hopen hk.symm
    rw [run_of_fits (hfits' calls hk), h.text_eq _ _ (by rw [tok.length_calls, hk]),
      openText_token hclosing, List.append_assoc]
  · rw [run_of_fits (hfits' calls hk)] at hn
    have hplain := Token.calls_plain htok hcalls inner
    exact (htok.isOpen_iff hcalls).1 (h.isOpen _ _ (by rw [tok.length_calls, hk]) hplain n hn)

/-- A call with nothing but words in it can stand in front of a quiet text. -/
theorem Quiet.call (h : Quiet function k t) (hname : WholeWord name)
    (hurl : name.map Char.toLower ≠ ['u', 'r', 'l']) (hfunction : String.ofList name ≠ function)
    (harg : Wordy arg) (hstart : Text.StartsOff Text.isWhitespace arg) :
    Quiet function k (name ++ '(' :: (arg ++ ')' :: t)) := by
  have hread : ∀ inner calls, ∃ n : Node, n.text.toList = name ++ '(' :: (arg ++ [')']) ∧
      n.callsOf function = [] ∧
      run (name ++ '(' :: (arg ++ ')' :: t)) inner calls = run t (n :: inner) calls := by
    intro inner calls
    have hopening : Fits (!calls.isEmpty) (arg ++ ')' :: t) (.opening name []) := by
      refine .opening (.inr (.inl hname)) (by simp) ?_ (by simp [isBareUrl, hurl])
      cases arg with
      | nil =>
        intro d hd
        obtain rfl : ')' = d := by simpa using hd
        rfl
      | cons c u => exact hstart
    let f : OpenCall := ⟨String.ofList name, "", inner⟩
    obtain ⟨ns, hrun, htext, hnone⟩ := harg.run_eq function t [] f calls
    have hclosing : Fits (!(f :: calls).isEmpty) t .closing := .closing rfl
    refine ⟨.call f.name f.before (splitSpace ns).1 (splitSpace ns).2.reverse none, ?_, ?_, ?_⟩
    · have hclose := openText_close f ns []
      rw [OpenCall.close, openText_cons, openText, openText, List.append_assoc] at hclose
      rw [List.append_cancel_left hclose, htext]
      simp [f]
    · have hargs : callsOf function (splitSpace ns).2.reverse = [] := by
        apply List.eq_nil_iff_forall_not_mem.2
        intro n hn
        rw [mem_callsOf_reverse, callsOf_splitSpace, hnone] at hn
        simp at hn
      rw [Node.callsOf, if_neg hfunction, hargs]
    · have hopen := run_of_fits hopening inner
      rw [Token.text, List.append_assoc] at hopen
      rw [List.append_nil] at hrun
      exact hopen.trans (hrun.trans (run_of_fits hclosing ns))
  refine ⟨fun inner calls hk => ?_, fun inner calls hk hcalls n hn => ?_⟩
  · obtain ⟨n, htext, -, hrun⟩ := hread inner calls
    rw [hrun, h.text_eq _ _ hk, openText_cons, htext]
    simp
  · obtain ⟨m, -, hnone, hrun⟩ := hread inner calls
    rw [hrun] at hn
    have := h.isOpen _ _ hk hcalls n hn
    rwa [IsOpen, callsOf, hnone, List.nil_append] at this

/-! ## In the place of calls -/

/-- A name that is no other function's behind any word, and begins like a word. -/
structure Joins (name : List Char) : Prop where
  whole : WholeWord name
  url : ∀ w : List Char, (w ++ name).map Char.toLower ≠ ['u', 'r', 'l']
  star : name.head? ≠ some '*'

/-- A node that is written as a call of this name with nothing but words in it. -/
def WordyCall (name : List Char) (n : Node) : Prop :=
  ∃ arg, Wordy arg ∧ Text.StartsOff Text.isWhitespace arg ∧
    n.text.toList = name ++ '(' :: (arg ++ [')'])

variable {repl : Node → Node}

/-- What is read of `s`, its calls of the function replaced, goes on from the open text with the
quiet text `t`. Where a parenthesis that closes nothing was a call's name, the new name may go on
with a word that is in front of it. -/
structure Quiets (function : String) (name : List Char) (repl : Node → Node) (s : List Char)
    (inner : List Node) (calls : List OpenCall) (t : List Char) : Prop where
  text_eq : (text (replaceCalls function repl (run s inner calls))).toList =
    openText (replaceCalls function repl inner)
      (calls.map (OpenCall.replaceCalls function repl)) ++ t
  quiet : Quiet function calls.length t
  suits : Suits s t ∨ calls = [] ∧ t.head? = name.head? ∧ ∀ w, WholeWord w →
    Quiet function 0 (w ++ t)

/-- Only a word in front of another one is read as something else. -/
theorem Fits.of_word {c : Char} (h : Fits nested s tok) (ht : t.head? = some c)
    (hc : endsWord c = false) (hstar : c ≠ '*') (hopening : ∀ name before, tok ≠ .opening name before) :
    Fits nested t tok ∨ ∃ w, WholeWord w ∧ tok = .node (.word (String.ofList w)) := by
  obtain ⟨hspace, hparen, -⟩ := not_special_of_not_endsWord hc
  have hstart : Text.StartsOff Text.isWhitespace t := by
    intro d hd
    obtain rfl : c = d := by simpa [ht] using hd
    exact hspace
  cases h with
  | word hw => exact .inr ⟨_, hw, rfl⟩
  | paren hnested => exact .inl (.paren hnested (by simpa [ht] using hparen))
  | string hquote h => exact .inl (.string hquote h)
  | space hne hw => exact .inl (.space hne hw hstart)
  | comment h => exact .inl (.comment h)
  | url hname hurl hbefore hcontents h => exact .inl (.url hname hurl hbefore hcontents h)
  | @divider mark after hmark hafter _ hafterStar =>
    refine .inl (.divider hmark hafter hstart fun hm => ?_)
    cases after with
    | nil => simpa [ht] using hstar
    | cons d after => exact hafterStar hm
  | opening => exact absurd rfl (hopening _ _)
  | closing hnested => exact .inl (.closing hnested)

section Quiets

variable {rest : List Char} (hkeeps : KeepsCalls repl) (hname : Joins name)
  (hfunction : String.ofList name ≠ function) (hcalls : ∀ f ∈ calls, f.name ≠ function)
include hkeeps hname hcalls

theorem Quiets.token (h : Quiets function name repl rest (tok.inner inner calls)
      (tok.calls inner calls) t)
    (hs : s ≠ []) (hlast : s.getLast? ≠ some '\\') (hlexed : Lexed (!calls.isEmpty) s tok rest)
    (htok : tok.Plain function)
    (hrun : run s inner calls = run rest (tok.inner inner calls) (tok.calls inner calls)) :
    Quiets function name repl s inner calls (tok.text ++ t) := by
  have hnested : (!calls.isEmpty) = true ↔ calls.length ≠ 0 := by cases calls <;> simp
  have hquiet : Quiet function (tok.depth calls.length) t := tok.length_calls inner calls ▸ h.quiet
  refine ⟨?_, ?_, .inl (suits_text_append hlexed hs t)⟩
  · rw [hrun, h.text_eq, htok.openText_replaceCalls hkeeps hcalls hlexed.calls_of_closing,
      List.append_assoc]
  · cases hlexed with
    | closed _ _ hfits => exact hquiet.token hnested htok (hfits t)
    | frayed _ _ _ hdangles => exact absurd hdangles hlast
    | whole hfits =>
      rcases h.suits with hsuits | ⟨hnil, hhead, hwords⟩
      · exact hquiet.token hnested htok (hfits.suits hsuits)
      · obtain ⟨c, r, hcr⟩ := List.exists_cons_of_ne_nil hname.whole.1
        have hc : endsWord c = false := endsWord_of_readWord (hcr ▸ hname.whole.2.1)
        have hstar : c ≠ '*' := by
          rintro rfl
          exact hname.star (by rw [hcr]; rfl)
        have hopening : ∀ name before, tok ≠ .opening name before := by
          rintro name before rfl
          simp [Token.calls] at hnil
        rcases hfits.of_word (hhead.trans (by rw [hcr]; rfl)) hc hstar hopening with
          hfits | ⟨w, hw, rfl⟩
        · exact hquiet.token hnested htok hfits
        · obtain rfl : calls = [] := hnil
          simpa [Token.text, Node.text] using hwords w hw

include hfunction in
omit hkeeps hcalls in
theorem Quiets.call {n : Node} (h : Quiets function name repl rest (n :: inner) calls t)
    (hcall : CallAt function (!calls.isEmpty) s n) (hn : WordyCall name (repl n))
    (hrun : run s inner calls = run rest (n :: inner) calls) :
    Quiets function name repl s inner calls ((repl n).text.toList ++ t) := by
  obtain ⟨arg, harg, hstart, htext⟩ := hn
  have hwritten : (repl n).text.toList ++ t = name ++ '(' :: (arg ++ ')' :: t) := by
    rw [htext]
    simp
  have hquiet : ∀ {v : List Char}, WholeWord v → v.map Char.toLower ≠ ['u', 'r', 'l'] →
      String.ofList v ≠ function → Quiet function calls.length (v ++ '(' :: (arg ++ ')' :: t)) :=
    fun hv hurl hne => h.quiet.call hv hurl hne harg hstart
  obtain ⟨c, r, hcr⟩ := List.exists_cons_of_ne_nil hname.whole.1
  have hhead : (name ++ '(' :: (arg ++ ')' :: t)).head? = name.head? := by rw [hcr]; rfl
  refine ⟨?_, ?_, ?_⟩
  · have hreplace : n.replaceCalls function repl = repl n := by
      obtain ⟨before, after, args, rfl⟩ := hcall.eq
      rw [Node.replaceCalls, if_pos rfl]
    rw [hrun, h.text_eq, replaceCalls, hreplace, openText_cons, List.append_assoc]
  · rw [hwritten]
    exact hquiet hname.whole (hname.url []) hfunction
  · rw [hwritten]
    by_cases hparen : function = ")"
    · have hnil : calls = [] := by simpa using hcall.nested_eq_false hparen
      refine .inr ⟨hnil, hhead, fun w hw => ?_⟩
      have hjoined : WholeWord (w ++ name) := hw.append hname.whole
      have hne : String.ofList (w ++ name) ≠ function := by
        rintro rfl
        have hchars : w ++ name = [')'] := by
          rw [← String.toList_ofList (l := w ++ name), hparen]
          rfl
        rw [hchars] at hjoined
        exact absurd (endsWord_of_readWord hjoined.2.1) (by decide)
      rw [← List.append_assoc]
      have := hquiet hjoined (hname.url w) hne
      rwa [hnil] at this
    · refine .inl (hcall.suits_word hparen (c := c) (hhead.trans (by rw [hcr]; rfl))
        (endsWord_of_readWord (hcr ▸ hname.whole.2.1)) ?_)
      rintro rfl
      exact hname.star (by rw [hcr]; rfl)

end Quiets

theorem getLast?_ne_of_suffix {rest : List Char} {c : Char} (h : rest <:+ s)
    (hs : s.getLast? ≠ some c) : rest.getLast? ≠ some c := by
  obtain ⟨u, rfl⟩ := h
  intro hrest
  simp [List.getLast?_append, hrest] at hs

/-- What is read next, each call of the function replaced by a call with words in it, has a quiet
text. -/
theorem exists_quiets (hkeeps : KeepsCalls repl) (hname : Joins name)
    (hfunction : String.ofList name ≠ function) (s : List Char) (inner : List Node)
    (calls : List OpenCall) (hcalls : ∀ f ∈ calls, f.name ≠ function)
    (hlast : s.getLast? ≠ some '\\')
    (hrepl : ∀ n ∈ callsOf function (run s inner calls), WordyCall name (repl n)) :
    ∃ t, Quiets function name repl s inner calls t := by
  revert hlast hrepl
  refine run_induction function (motive := fun s inner calls => s.getLast? ≠ some '\\' →
    (∀ n ∈ callsOf function (run s inner calls), WordyCall name (repl n)) →
      ∃ t, Quiets function name repl s inner calls t) ?_ ?_ ?_ s inner calls hcalls
  · intro inner calls hcalls _ _
    have hnil : Rewrites function repl [] inner calls _ _ := rewrites_nil hkeeps hcalls inner
    exact ⟨_, hnil.text_eq, quiet_parens function calls.length, .inl hnil.suits⟩
  · intro s tok rest inner calls hcalls hs hlexed htok hrun ih hlast hrepl
    rw [hrun] at hrepl
    obtain ⟨t, h⟩ := ih (getLast?_ne_of_suffix hlexed.suffix hlast) hrepl
    exact ⟨_, h.token hkeeps hname hcalls hs hlast hlexed htok hrun⟩
  · intro s n rest inner calls hcalls hcall hrest hrun ih hlast hrepl
    rw [hrun] at hrepl
    obtain ⟨t, h⟩ := ih (getLast?_ne_of_suffix hrest hlast) hrepl
    exact ⟨_, h.call hname hfunction hcall (hrepl n (hcall.mem_run hcalls rest)) hrun⟩

/-- A value that does not end in a backslash, written with other calls in the place of those of a
function: it is read as it is written, and has no call of the function. -/
theorem text_parse_replaceCalls (hkeeps : KeepsCalls repl) (hname : Joins name)
    (hfunction : String.ofList name ≠ function) (v : String)
    (hlast : v.toList.getLast? ≠ some '\\')
    (hrepl : ∀ n ∈ callsOf function (parse v), WordyCall name (repl n)) :
    let written := text (replaceCalls function repl (parse v))
    text (parse written) = written ∧ callsOf function (parse written) = [] := by
  intro written
  obtain ⟨t, h⟩ := exists_quiets hkeeps hname hfunction v.toList [] [] (by simp) hlast hrepl
  have htext : written.toList = t := h.text_eq
  refine ⟨?_, List.eq_nil_iff_forall_not_mem.2 fun n hn => ?_⟩
  · rw [← String.toList_inj, htext, parse, htext, h.quiet.text_eq [] [] rfl]
    rfl
  · rw [parse, htext] at hn
    rcases h.quiet.isOpen [] [] rfl (by simp) n hn with hn | ⟨f, hf, -⟩
    · simp [callsOf] at hn
    · simp at hf

/-! ## Backslashes at the end -/

theorem getLast?_append_ne {c : Char} (hs : s.getLast? ≠ some c) (ht : c ∉ t) :
    (s ++ t).getLast? ≠ some c := by
  intro h
  rw [List.getLast?_append] at h
  cases hlast : t.getLast? with
  | none => exact hs (by simpa [hlast] using h)
  | some d =>
    obtain rfl : d = c := by simpa [hlast] using h
    exact ht (List.mem_of_getLast? hlast)

/-- What closes a value is no backslash. -/
theorem getLast?_text_parse {v : String} (hv : v.toList.getLast? ≠ some '\\') :
    (text (parse v)).toList.getLast? ≠ some '\\' := by
  obtain ⟨mark, hmark, k, hclose⟩ := exists_mark_close v
  rw [text_parse_eq, String.toList_append, hclose]
  refine getLast?_append_ne hv ?_
  rw [String.toList_append, String.toList_ofList, List.mem_append, not_or]
  refine ⟨?_, fun hmem => absurd (List.eq_of_mem_replicate hmem) (by decide)⟩
  clear hclose
  revert mark
  decide

theorem getLast?_text_call (name before after : String) (args : List Node) (key : Option String) :
    (Node.call name before after args key).text.toList.getLast? = some ')' := by
  rw [Node.text, String.toList_append, List.getLast?_append]
  rfl

/-- Calls in the place of calls end a value as these do. -/
theorem getLast?_text_replaceCalls (hkeeps : KeepsCalls repl) (ns : List Node) :
    (text (replaceCalls function repl ns)).toList.getLast? = some '\\' ↔
      (text ns).toList.getLast? = some '\\' := by
  induction ns using List.reverseRecOn with
  | nil => rfl
  | append_singleton ns n ih =>
    rw [replaceCalls_eq_map, List.map_append, ← replaceCalls_eq_map, text_append, text_append,
      String.toList_append, String.toList_append, List.getLast?_append, List.getLast?_append]
    cases n with
    | call name before after args key =>
      have hlast : ((Node.call name before after args key).replaceCalls function repl).text.toList.getLast? =
          some ')' := by
        rw [Node.replaceCalls]
        split
        · obtain ⟨_, _, _, _, _, hrepl⟩ := hkeeps name before after args key
          rw [hrepl, getLast?_text_call]
        · rw [getLast?_text_call]
      simp [text, hlast, getLast?_text_call]
    | _ => simp [Node.replaceCalls, Option.or_eq_some_iff, ih]

end CssTheming.Value
