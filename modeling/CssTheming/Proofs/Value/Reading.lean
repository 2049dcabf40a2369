import CssTheming.Proofs.Value.Lexing

/-!
# Values read token by token

A token leaves the text that was read as it is and goes on with less of it. From that: nodes hold
all of a value's text, only what was open is closed behind it, and the arguments of a call are read
the same way wherever the call stands.
-/

namespace CssTheming.Value

variable {nested : Bool} {s rest : List Char} {tok : Token} {inner : List Node}
    {calls : List OpenCall}

/-! ## Steps -/

theorem Fits.text_ne_nil (h : Fits nested s tok) : tok.text ≠ [] := by
  intro hnil
  cases h with
  | word hw => exact hw.1 (by simpa [Token.text, Node.text] using hnil)
  | paren => simp [Token.text, Node.text] at hnil
  | string => simp [Token.text, Node.text] at hnil
  | space hne => exact hne (by simpa [Token.text, Node.text] using hnil)
  | comment => simp [Token.text, Node.text] at hnil
  | url => simp [Token.text, text_urlNode] at hnil
  | divider => simp [Token.text] at hnil
  | opening => simp [Token.text] at hnil
  | closing => simp [Token.text] at hnil

theorem Lexed.length_lt (h : Lexed nested s tok rest) (hs : s ≠ []) : rest.length < s.length := by
  cases h with
  | whole h =>
    have := List.length_pos_iff.2 h.text_ne_nil
    rw [List.length_append]
    omega
  | closed => exact List.length_pos_iff.2 hs
  | frayed => exact List.length_pos_iff.2 hs

theorem Lexed.suffix (h : Lexed nested s tok rest) : rest <:+ s := by
  cases h with
  | whole => exact List.suffix_append _ _
  | closed => exact List.nil_suffix
  | frayed => exact List.nil_suffix

/-- Reading a text that is not at its end goes on behind one token. -/
theorem exists_token (nested : Bool) (hs : s ≠ []) :
    ∃ tok rest, Lexed nested s tok rest ∧ rest.length < s.length ∧
      ∀ inner calls, (!calls.isEmpty) = nested → run s inner calls = run rest
        (tok.inner inner calls) (tok.calls inner calls) := by
  obtain ⟨c, r, rfl⟩ := List.exists_cons_of_ne_nil hs
  have h := lexed nested c r
  refine ⟨_, _, h, h.length_lt hs, fun inner calls hcalls => ?_⟩
  subst hcalls
  exact run_cons c r inner calls

/-- What every token keeps, in front of what is left of the text, holds once all of it is read. -/
theorem run_invariant {I : List Char → List Node → List OpenCall → Prop}
    (step : ∀ s tok rest inner calls, s ≠ [] → Lexed (!calls.isEmpty) s tok rest →
      I s inner calls → I rest (tok.inner inner calls) (tok.calls inner calls))
    (s : List Char) (inner : List Node) (calls : List OpenCall) (h : I s inner calls) :
    ∃ inner' calls', I [] inner' calls' ∧ run s inner calls = closeAll inner' calls' := by
  induction hlen : s.length using Nat.strongRecOn generalizing s inner calls with
  | ind k ih =>
    subst hlen
    by_cases hs : s = []
    · subst hs
      exact ⟨inner, calls, h, run_nil inner calls⟩
    · obtain ⟨tok, rest, hlexed, hlt, hrun⟩ := exists_token (!calls.isEmpty) hs
      rw [hrun inner calls rfl]
      exact ih _ hlt rest _ _ (step _ _ _ _ _ hs hlexed h) rfl

theorem Lexed.nested_of_closing (h : Lexed nested s .closing rest) : nested = true := by
  cases h with
  | whole h =>
    cases h with
    | closing hnested => exact hnested

theorem Lexed.calls_of_closing (h : Lexed (!calls.isEmpty) s tok rest) :
    tok = .closing → calls ≠ [] := by
  rintro rfl rfl
  exact absurd h.nested_of_closing (by decide)

/-! ## Texts -/

/-- The text of what has been read. -/
def openText : List Node → List OpenCall → List Char
  | inner, [] => (text inner.reverse).toList
  | inner, f :: fs =>
    openText f.outer fs ++
      (f.name.toList ++ '(' :: (f.before.toList ++ (text inner.reverse).toList))

theorem openText_cons (n : Node) (inner : List Node) (calls : List OpenCall) :
    openText (n :: inner) calls = openText inner calls ++ n.text.toList := by
  cases calls <;> simp [openText, text_append, text]

theorem openText_splitSpace (inner : List Node) (calls : List OpenCall) :
    openText (splitSpace inner).2 calls ++ (splitSpace inner).1.toList = openText inner calls := by
  rw [splitSpace.eq_def]
  split
  · rw [openText_cons]
    rfl
  · simp

theorem openText_close (f : OpenCall) (inner : List Node) (calls : List OpenCall) :
    openText (f.close inner) calls = openText inner (f :: calls) ++ [')'] := by
  have h := openText_splitSpace inner []
  simp only [openText] at h
  rw [OpenCall.close, openText_cons, openText, Node.text]
  simp [← h]

theorem text_closeAll (inner : List Node) (calls : List OpenCall) :
    (text (closeAll inner calls)).toList = openText inner calls ++
      List.replicate calls.length ')' := by
  induction calls generalizing inner with
  | nil => simp [closeAll, openText]
  | cons f fs ih =>
    rw [closeAll, ih, openText_close, List.append_assoc, List.length_cons, List.replicate_succ]
    rfl

theorem openText_token (hclosing : tok = .closing → calls ≠ []) (inner : List Node) :
    openText (tok.inner inner calls)
      (tok.calls inner calls) = openText inner calls ++ tok.text := by
  cases tok with
  | node n => exact openText_cons n inner calls
  | divider mark after =>
    have h :=
      openText_cons (.divider mark.toString (splitSpace inner).1 (String.ofList after))
        (splitSpace inner).2 calls
    rw [← openText_splitSpace inner calls]
    refine h.trans ?_
    simp [Token.text, Node.text]
  | opening name before => simp [Token.inner, Token.calls, openText, Token.text, text]
  | closing =>
    obtain ⟨f, fs, rfl⟩ := List.exists_cons_of_ne_nil (hclosing rfl)
    exact openText_close f inner fs

/-- A token is the text that it was read of, closed if the text ends in it. -/
theorem Lexed.text_append (h : Lexed nested s tok rest) :
    tok.text ++ rest = s ∨ rest = [] ∧ ∃ close ∈ closers, tok.text = s ++ close := by
  cases h with
  | whole h => exact .inl rfl
  | closed hn hmem h => exact .inr ⟨rfl, _, hmem, hn⟩
  | frayed hn hmem h => exact .inr ⟨rfl, _, hmem, hn⟩

/-! ## Calls -/

/-- The innermost open call is read to its end, or closed there, without regard to what is around
it. -/
theorem exists_run_call (s : List Char) (inner : List Node) (f : OpenCall) (calls : List OpenCall) :
    ∃ after args rest, rest <:+ s ∧
      run s inner (f :: calls) = run rest
        (.call f.name f.before after args none :: f.outer) calls := by
  induction hlen : s.length using Nat.strongRecOn generalizing s inner f calls with
  | ind k ih =>
    subst hlen
    by_cases hs : s = []
    · subst hs
      refine ⟨(splitSpace inner).1, (splitSpace inner).2.reverse, [], List.suffix_rfl, ?_⟩
      rw [run.eq_def, run.eq_def]
      rfl
    · obtain ⟨tok, rest, hlexed, hlt, hrun⟩ := exists_token true hs
      have hrest := hlexed.suffix
      rw [hrun inner (f :: calls) rfl]
      cases tok with
      | node n =>
        obtain ⟨after, args, rest', hrest', h⟩ := ih _ hlt rest (n :: inner) f calls rfl
        exact ⟨after, args, rest', hrest'.trans hrest, h⟩
      | divider mark after =>
        obtain ⟨after, args, rest', hrest', h⟩ :=
          ih _ hlt rest (Token.divider mark after |>.inner inner (f :: calls)) f calls rfl
        exact ⟨after, args, rest', hrest'.trans hrest, h⟩
      | opening name before =>
        -- The inner call is read first, then the rest of the outer one.
        obtain ⟨_, _, rest₁, hrest₁, h₁⟩ :=
          ih _ hlt rest [] ⟨String.ofList name, String.ofList before, inner⟩ (f :: calls) rfl
        have hlt₁ := Nat.lt_of_le_of_lt hrest₁.length_le hlt
        obtain ⟨after, args, rest₂, hrest₂, h₂⟩ := ih _ hlt₁ rest₁ _ f calls rfl
        refine ⟨after, args, rest₂, (hrest₂.trans hrest₁).trans hrest, ?_⟩
        rw [← h₂, ← h₁]
        rfl
      | closing => exact ⟨_, _, rest, hrest, rfl⟩

end CssTheming.Value
