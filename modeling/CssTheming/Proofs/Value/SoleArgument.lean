import CssTheming.Proofs.Value.Parsed
import CssTheming.Proofs.Value.Replacement

/-!
# Calls with one argument

A call with nothing in it but a plain word, bare or in quotes, and white space is read back from its
text.
-/

namespace CssTheming.Value

variable {function before after : String} {w s : List Char} {c : Char}

/-- A text of characters that stand for themselves everywhere. -/
def PlainText (w : List Char) : Prop := ∀ c ∈ w, endsWord c = false ∧ c ≠ '\\'

theorem PlainText.tail (h : PlainText (c :: w)) : PlainText w :=
  fun d hd => h d (List.mem_cons_of_mem c hd)

theorem PlainText.readWord (h : PlainText w) :
    Value.readWord w = (w, []) ∧ Text.dangles w = false := by
  induction w with
  | nil => exact ⟨rfl, rfl⟩
  | cons c w ih =>
    obtain ⟨hword, hescape⟩ := h c List.mem_cons_self
    obtain ⟨hread, hend⟩ := ih h.tail
    rw [readWord_cons_of_ne hescape, Text.dangles_cons_of_ne hescape, hword, hread]
    exact ⟨rfl, hend⟩

theorem PlainText.wholeWord (h : PlainText w) (hne : w ≠ []) : WholeWord w :=
  ⟨hne, h.readWord.1, h.readWord.2⟩

theorem quoted?_of_ne {mark : Char} (h : ∀ c ∈ w, c ≠ mark ∧ c ≠ '\\') (hmark : mark ≠ '\\')
    (s : List Char) :
    Text.quoted? mark (w ++ mark :: s) = some (w, s) := by
  induction w with
  | nil =>
    rw [List.nil_append, Text.quoted?_cons_of_ne hmark]
    exact if_pos rfl
  | cons c w ih =>
    obtain ⟨hne, hescape⟩ := h c List.mem_cons_self
    rw [List.cons_append, Text.quoted?_cons_of_ne hescape, if_neg hne,
      ih fun d hd => h d (List.mem_cons_of_mem c hd)]
    rfl

theorem PlainText.quoted? (h : PlainText w) {quote : Char} (hquote : quote = '"' ∨ quote = '\'') :
    Text.quoted? quote (w ++ [quote]) = some (w, []) := by
  have hmark : quote ≠ '\\' ∧ endsWord quote = true := by rcases hquote with rfl | rfl <;> decide
  refine quoted?_of_ne (fun c hc => ?_) hmark.1 []
  obtain ⟨hword, hescape⟩ := h c hc
  refine ⟨?_, hescape⟩
  rintro rfl
  rw [hmark.2] at hword
  exact absurd hword (by decide)

/-! ## Bare calls -/

theorem PlainText.trimEnd_append (h : PlainText w) (hafter : IsSpace after.toList) :
    Text.trimEnd (w ++ after.toList) = w ∧ Text.trailing (w ++ after.toList) = after.toList := by
  have hstart : Text.StartsOff Text.isWhitespace w.reverse := by
    intro c hc
    have hmem : c ∈ w := List.mem_reverse.1 (List.mem_of_mem_head? hc)
    exact (not_special_of_not_endsWord (h c hmem).1).1
  obtain ⟨htake, hdrop⟩ := Text.takeWhile_append_of (s := after.toList.reverse)
    (fun c hc => hafter c (List.mem_reverse.1 hc)) hstart
  rw [Text.trimEnd, Text.trailing, List.reverse_append, htake, hdrop, List.reverse_reverse,
    List.reverse_reverse]
  exact ⟨rfl, rfl⟩

theorem PlainText.urlContents (h : PlainText w) (hne : w ≠ []) (after : List Char) :
    UrlContents (w ++ after) := by
  obtain ⟨c, r, rfl⟩ := List.exists_cons_of_ne_nil hne
  have hc := not_special_of_not_endsWord (h c List.mem_cons_self).1
  refine ⟨?_, ?_⟩
  · intro d hd
    obtain rfl : c = d := by simpa using hd
    exact hc.1
  · intro d hd
    obtain rfl : c = d := by simpa using hd
    exact hc.2.2

/-- A bare `url` of a plain word is read back. -/
theorem run_bareUrl (hname : WholeWord function.toList)
    (hurl : function.toList.map Char.toLower = ['u', 'r', 'l'])
    (hbefore : IsSpace before.toList) (hafter : IsSpace after.toList)
    (hw : PlainText w) (hne : w ≠ [])
    (inner : List Node) (calls : List OpenCall) :
    run ((Node.call function before after [.word (String.ofList w)] none).text.toList ++ s) inner
      calls =
      run s (.call function before after [.word (String.ofList w)] none :: inner) calls := by
  obtain ⟨htrim, htrailing⟩ := hw.trimEnd_append hafter
  have hnode : urlNode function.toList before.toList (w ++ after.toList) =
      .call function before after [.word (String.ofList w)] none := by
    rw [urlNode, htrim, htrailing, if_neg (by simpa using hne)]
    simp
  have hplain : ∀ c ∈ w ++ after.toList, c ≠ ')' ∧ c ≠ '\\' := by
    intro c hc
    rcases List.mem_append.1 hc with hc | hc
    · obtain ⟨hword, hescape⟩ := hw c hc
      refine ⟨?_, hescape⟩
      rintro rfl
      exact absurd hword (by decide)
    · have hspace := hafter c hc
      refine ⟨?_, ?_⟩
      · rintro rfl
        exact absurd hspace (by decide)
      · rintro rfl
        exact absurd hspace (by decide)
  rw [← hnode]
  exact run_of_fits
    (.url hname hurl hbefore (hw.urlContents hne _) (quoted?_of_ne hplain (by decide) [])) inner

/-! ## Calls that are opened -/

/-- A text that a word can end in front of. -/
def EndsArgument (s : List Char) : Prop :=
  ∃ c r, s = c :: r ∧ (Text.isWhitespace c = true ∨ c = ')')

/-- A call whose argument is a token of its own is read token by token. -/
theorem run_openCall {arg : Node} {inner : List Node} {calls : List OpenCall}
    (hopening : ∀ t, EndsArgument t →
      Fits (!calls.isEmpty) (arg.text.toList ++ t) (.opening function.toList before.toList))
    (harg : ∀ t, EndsArgument t → Fits true t (.node arg)) (hspace : ∀ v, arg ≠ .space v)
    (hafter : IsSpace after.toList) :
    run ((Node.call function before after [arg] none).text.toList ++ s) inner calls =
      run s (.call function before after [arg] none :: inner) calls := by
  have htext : (Node.call function before after [arg] none).text.toList ++ s =
      Token.text (.opening function.toList before.toList) ++
        (arg.text.toList ++ (after.toList ++ ')' :: s)) := by
    simp [Node.text, Token.text, text]
  have hend : EndsArgument (after.toList ++ ')' :: s) := by
    cases hchars : after.toList with
    | nil => exact ⟨')', s, rfl, .inr rfl⟩
    | cons c r => exact ⟨c, r ++ ')' :: s, rfl, .inl (hafter c (hchars ▸ List.mem_cons_self))⟩
  have hword : Fits (!(OpenCall.mk function before inner :: calls).isEmpty)
      (after.toList ++ ')' :: s) (.node arg) :=
    harg _ hend
  have hclosing : Fits (!(OpenCall.mk function before inner :: calls).isEmpty) s .closing :=
    .closing rfl
  have hopened : Token.calls (.opening function.toList before.toList) inner calls =
      ⟨function, before, inner⟩ :: calls := by
    rw [Token.calls, String.ofList_toList, String.ofList_toList]
  have hbehind : run (after.toList ++ ')' :: s) [arg] (⟨function, before, inner⟩ :: calls) =
      run s (.call function before after [arg] none :: inner) calls := by
    by_cases hnil : after.toList = []
    · have hempty : after = "" := String.toList_eq_nil_iff.1 hnil
      rw [hnil, hempty]
      refine (run_of_fits hclosing [arg]).trans ?_
      rw [Token.inner, OpenCall.close, splitSpace_of_ne hspace]
      rfl
    · have hfits : Fits (!(OpenCall.mk function before inner :: calls).isEmpty) (')' :: s)
          (.node (.space (String.ofList after.toList))) := by
        refine .space hnil hafter ?_
        intro c hc
        obtain rfl : ')' = c := by simpa using hc
        rfl
      rw [String.ofList_toList] at hfits
      exact (run_of_fits hfits [arg]).trans (run_of_fits hclosing [.space after, arg])
  rw [htext, run_of_fits (hopening _ hend), hopened, ← hbehind]
  exact run_of_fits hword []

/-! ## In the place of a call -/

/-- A plain word or a plain string. -/
inductive PlainArgument : Node → Prop
  | word {w : List Char} (hne : w ≠ []) (h : PlainText w) : PlainArgument (.word (String.ofList w))
  | string {w : List Char} {quote : Char} (hquote : quote = '"' ∨ quote = '\'') (h : PlainText w) :
    PlainArgument (.string (String.ofList w) quote)

variable {arg : Node}

theorem PlainArgument.ne_space (h : PlainArgument arg) (v : String) : arg ≠ .space v := by
  cases h <;> simp

theorem EndsArgument.endsHere (h : EndsArgument s) : EndsHere s ∧ s.head? ≠ some '(' := by
  obtain ⟨c, r, rfl, hc⟩ := h
  refine ⟨fun d hd => ?_, fun hd => ?_⟩
  · obtain rfl : c = d := by simpa using hd
    rcases hc with hc | rfl
    · simp [endsWord, hc]
    · rfl
  · obtain rfl : c = '(' := by simpa using hd
    rcases hc with hc | hc
    · exact absurd hc (by decide)
    · exact absurd hc (by decide)

theorem PlainArgument.fits (h : PlainArgument arg) (hs : EndsArgument s) :
    Fits true s (.node arg) := by
  cases h with
  | word hne h => exact .word (h.wholeWord hne) hs.endsHere.1 hs.endsHere.2
  | string hquote h => exact .string hquote (h.quoted? hquote)

/-- The opening of a call in front of a plain argument is read as one, unless that is the word of a
bare `url`. -/
theorem PlainArgument.opening (h : PlainArgument arg) {nested : Bool} {name : List Char}
    (hname : name = [] ∨ WholeWord name ∨ name = [')'] ∧ nested = false)
    (hbefore : IsSpace before.toList)
    (hurl : name.map Char.toLower ≠ ['u', 'r', 'l'] ∨ ∃ v quote, arg = .string v quote)
    (s : List Char) :
    Fits nested (arg.text.toList ++ s) (.opening name before.toList) := by
  have hhead : ∃ c, (arg.text.toList ++ s).head? = some c ∧ Text.isWhitespace c = false ∧
      (name.map Char.toLower ≠ ['u', 'r', 'l'] ∨ c = '"' ∨ c = '\'') := by
    cases h with
    | @word w hne h =>
      obtain ⟨c, r, rfl⟩ := List.exists_cons_of_ne_nil hne
      refine ⟨c, by simp [Node.text], (not_special_of_not_endsWord (h c List.mem_cons_self).1).1,
        .inl ?_⟩
      exact hurl.resolve_right (by simp)
    | @string w quote hquote h =>
      refine ⟨quote, by simp [Node.text], ?_, .inr hquote⟩
      rcases hquote with rfl | rfl <;> rfl
  obtain ⟨c, hc, hspace, hquote⟩ := hhead
  have hstart : Text.StartsOff Text.isWhitespace (arg.text.toList ++ s) := by
    intro d hd
    obtain rfl : c = d := by simpa [hc] using hd
    exact hspace
  refine .opening hname hbefore hstart ?_
  rw [isBareUrl_eq_head name hstart, hc]
  rcases hquote with hne | rfl | rfl
  · simp [hne]
  · simp
  · simp

/-- A call of the function with a plain argument can take the place of any. -/
theorem replaces_call (hname : IsName function.toList) (hbefore : IsSpace before.toList)
    (hafter : IsSpace after.toList)
    (harg : PlainArgument arg) : Replaces function (.call function before after [arg] none) where
  alone nested hnested s inner calls hcalls := by
    subst hcalls
    have hname' : function.toList = [] ∨ WholeWord function.toList ∨
        function.toList = [')'] ∧ (!calls.isEmpty) = false := by
      refine hname.imp_right (Or.imp_right fun hparen => ⟨hparen, hnested ?_⟩)
      rw [← String.toList_inj, hparen]
      rfl
    have hopened : (function.toList.map Char.toLower ≠ ['u', 'r', 'l'] ∨
      ∃ v quote, arg = .string v quote) →
        run ((Node.call function before after [arg] none).text.toList ++ s) inner calls =
          run s (.call function before after [arg] none :: inner) calls := fun hurl =>
      run_openCall (fun t _ => harg.opening hname' hbefore hurl t) (fun _ ht => harg.fits ht)
        harg.ne_space hafter
    cases harg with
    | string hquote h => exact hopened (.inr ⟨_, _, rfl⟩)
    | word hne h =>
      by_cases hurl : function.toList.map Char.toLower = ['u', 'r', 'l']
      · have hword : WholeWord function.toList := by
          rcases hname with hnil | hword | hparen
          · simp [hnil] at hurl
          · exact hword
          · rw [hparen] at hurl
            exact absurd hurl (by decide)
        exact run_bareUrl hword hurl hbefore hafter h hne inner calls
      · exact hopened (.inl hurl)
  head := by
    refine .inl ?_
    have htext : (Node.call function before after [arg] none).text.toList =
        (function.toList ++ ['(']) ++
          (before.toList ++ ((text [arg]).toList ++ (after.toList ++ [')']))) := by
      simp [Node.text]
    rw [htext, List.head?_append]
    cases function.toList <;> rfl

end CssTheming.Value
