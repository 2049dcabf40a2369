import CssTheming.Proofs.Sheet.Reading
import CssTheming.Proofs.Sheet.Ends

/-!
# Looking ahead for a block

`opensBlock` says whether `readUntil` will find a brace at the end of a statement, unless one of the
strings on the way is broken by a newline: reading ends that string there, and looking ahead does
not. So what is taken for a rule in a block opens one, and what is taken for a declaration is read
up to where a rule would have been.
-/

namespace CssTheming.Sheet

variable {c : Char} {r s t text rest stops stops' : List Char} {depth : Nat}

/-! ## The end of a statement -/

/-- The strings that reading goes over in front of its stop, each with its opening quote. -/
def stringsUntil (stops : List Char) (depth : Nat) (s : List Char) : List (List Char) :=
  match s with
  | [] => []
  | c :: r =>
    if depth = 0 ∧ c ∈ stops then []
    else (if isQuote c then [(unit c r).1] else []) ++
      stringsUntil stops (depthAfter depth c) (unit c r).2
termination_by s.length
decreasing_by exact Nat.lt_succ_of_le (length_unit_le c r)

theorem stringsUntil_cons (stops : List Char) (depth : Nat) (c : Char) (r : List Char) :
    stringsUntil stops depth (c :: r) =
      if depth = 0 ∧ c ∈ stops then []
      else (if isQuote c then [(unit c r).1] else []) ++
        stringsUntil stops (depthAfter depth c) (unit c r).2 := by
  rw [stringsUntil]

/-- The two scanners go over the text unit by unit, to the same stop. -/
theorem opensBlock_iff (hlines : ∀ q ∈ stringsUntil headStops depth s, hasBareNewline q = false) :
    opensBlock depth s = true ↔ (readUntil headStops depth s).2.head? = some '{' := by
  fun_induction readUntil headStops depth s with
  | case1 depth => simp [opensBlock]
  | case2 depth c r hstop =>
    obtain ⟨rfl, hc⟩ := hstop
    have hcases : c = '{' ∨ c = ';' ∨ c = '}' := by simpa [headStops] using hc
    rcases hcases with rfl | rfl | rfl
    · simp [opensBlock_brace]
    · simp [opensBlock_semicolon]
    · simp [opensBlock, isQuote]
  | case3 depth c r hstop u v hread ih =>
    rw [stringsUntil_cons, if_neg hstop, List.forall_mem_append] at hlines
    rw [opensBlock_cons hstop fun hquote => hlines.1 _ (by simp [hquote]), ih hlines.2, hread]

/-- A newline ends the string for reading only. -/
example : opensBlock 0 "a'\n\x7b".toList = false ∧
    readUntil headStops 0 "a'\n\x7b".toList = (['a', '\'', '\n'], ['{']) := by
  decide +kernel

/-! ## The stops of a declaration -/

theorem readUntil_eq_nil (h : ∀ d ∈ rest.head?, d ∈ stops) :
    readUntil stops 0 rest = ([], rest) := by
  cases rest with
  | nil => rw [readUntil]
  | cons d u => rw [readUntil_cons, if_pos ⟨rfl, h d rfl⟩]

/-- Reading that does not stop at one of the stops stops without it too. -/
theorem readUntil_of_not_stop (hsub : stops ⊆ stops') (h : readUntil stops' depth s = (t, rest))
    (hstop : ∀ d ∈ rest.head?, d ∈ stops) : readUntil stops depth s = (t, rest) := by
  rw [readUntil_of_subset hsub h, readUntil_eq_nil hstop, List.append_nil]

/-- The property and the value of a declaration are what is read up to the end of the value. -/
theorem readUntil_declaration {property value u : List Char}
    (hproperty : readUntil propertyStops depth s = (property, ':' :: t))
    (hvalue : readUntil valueStops 0 t = (value, u)) :
    readUntil valueStops depth s = (property ++ ':' :: value, u) := by
  have hcolon : readUntil valueStops 0 (':' :: t) = (':' :: value, u) := by
    rw [readUntil_cons, if_neg (by decide), unit_single (by decide) (by decide) (by simp)]
    rw [show depthAfter 0 ':' = 0 from rfl, hvalue]
    rfl
  rw [readUntil_of_subset (by decide) hproperty, hcolon]

/-! ## Statements in a block -/

section Statement

variable (pos : Text.Position) (inner : List Statement) {blocks : List OpenBlock}

theorem run_cons_semicolon (r : List Char) :
    run (';' :: r) pos inner blocks = run r (pos.next ';') inner blocks := by
  rw [run.eq_def]
  dsimp only
  rw [if_pos (.inr rfl)]

/-- A statement that opens no block is a declaration up to its end, or a fault. -/
theorem run_of_not_opensBlock (hc : Starts c r)
    (hblock : (blocks.isEmpty || opensBlock 0 (c :: r)) = false)
    (hread : readUntil headStops 0 (c :: r) = (text, rest))
    (hvalue : readUntil valueStops 0 (c :: r) = (text, rest)) :
    (readUntil propertyStops 0 (c :: r) = (text, rest) ∧
      run (c :: r) pos inner blocks = .error (pos.line, .notADeclaration (shown text))) ∨
    ∃ property value, text = property ++ ':' :: value ∧
      readUntil propertyStops 0 (c :: r) = (property, ':' :: (value ++ rest)) ∧
      run (c :: r) pos inner blocks =
        if (Text.trim property).isEmpty then .error (pos.line, .namelessDeclaration)
        else run rest (pos.after text) (.mk (declaration property value) pos [] :: inner)
          blocks := by
  rw [run_declaration_eq pos inner blocks hc hblock]
  split
  · rename_i property t hproperty
    have hall := readUntil_declaration hproperty rfl
    rw [hvalue] at hall
    obtain ⟨rfl, rfl⟩ := Prod.mk.inj hall
    refine .inr ⟨property, _, rfl, by rw [hproperty, readUntil_append], ?_⟩
    congr 1
    split <;> rename_i hq
    · rw [hq, run_cons_semicolon]
      simp
    · rw [hq]
  · rename_i property u hcolon hproperty
    have hstop : ∀ d ∈ u.head?, d ∈ headStops := by
      intro d hd
      have hmem := readUntil_stops hproperty d hd
      obtain ⟨v, rfl⟩ := List.head?_eq_some_iff.1 hd
      have hother : d ∈ [';', '{', '}'] := (List.mem_cons.1 hmem).resolve_left fun heq =>
        hcolon v (by rw [heq])
      exact (by decide : [';', '{', '}'] ⊆ headStops) hother
    have hall := readUntil_of_not_stop (by decide) hproperty hstop
    rw [hread] at hall
    obtain ⟨rfl, rfl⟩ := Prod.mk.inj hall
    exact .inl ⟨hproperty, rfl⟩

/-- In a block, a statement whose strings are not broken by newlines is taken for a rule if and only
if reading up to a brace, a semicolon or a closing brace stops at a brace. A rule then has its block
there. A declaration ends there, so no brace stands in it outside of strings, comments, escapes and
brackets; all that reading it may find amiss is that it has no colon or no name. -/
theorem opensBlock_decides (hc : Starts c r)
    (hlines : ∀ q ∈ stringsUntil headStops 0 (c :: r), hasBareNewline q = false)
    (hblocks : blocks ≠ []) :
    ∃ text rest, readUntil headStops 0 (c :: r) = (text, rest) ∧
      (opensBlock 0 (c :: r) = true ↔ rest.head? = some '{') ∧
      (opensBlock 0 (c :: r) = true → ∃ body pos', rest = '{' :: body ∧
        run (c :: r) pos inner blocks = run body pos' [] (⟨rule text, pos, inner⟩ :: blocks)) ∧
      (opensBlock 0 (c :: r) = false → readUntil valueStops 0 (c :: r) = (text, rest) ∧
        ((readUntil propertyStops 0 (c :: r) = (text, rest) ∧
          run (c :: r) pos inner blocks = .error (pos.line, .notADeclaration (shown text))) ∨
        ∃ property value, text = property ++ ':' :: value ∧
          readUntil propertyStops 0 (c :: r) = (property, ':' :: (value ++ rest)) ∧
          run (c :: r) pos inner blocks =
            if (Text.trim property).isEmpty then .error (pos.line, .namelessDeclaration)
            else run rest (pos.after text) (.mk (declaration property value) pos [] :: inner)
              blocks)) := by
  have hiff := opensBlock_iff hlines
  have hin : blocks.isEmpty = false := by simpa using hblocks
  refine ⟨(readUntil headStops 0 (c :: r)).1, _, rfl, hiff, fun hopens => ?_, fun hopens => ?_⟩
  · obtain ⟨body, hbody⟩ := List.head?_eq_some_iff.1 (hiff.1 hopens)
    obtain ⟨pos', hrun⟩ := run_rule pos inner blocks hc (by simp [hopens]) (Prod.ext rfl hbody)
    exact ⟨body, pos', hbody, hrun⟩
  · have hstop : ∀ d ∈ (readUntil headStops 0 (c :: r)).2.head?, d ∈ valueStops := by
      intro d hd
      refine (List.mem_cons.1 (readUntil_stops rfl d hd)).resolve_left ?_
      rintro rfl
      rw [hiff.2 hd] at hopens
      cases hopens
    have hvalue := readUntil_of_not_stop (by decide : valueStops ⊆ headStops) rfl hstop
    exact ⟨hvalue, run_of_not_opensBlock pos inner hc (by simp [hin, hopens]) rfl hvalue⟩

/-- A string, a comment, an escape and brackets hide semicolons in a selector and braces in a value.
The comment that hides the last brace is not closed. -/
theorem opensBlock_decides_hidden :
    let selector := "[b=';']/*;*/\\;(;)".toList
    let value := "'\x7b'/*\x7b*/\\\x7b(\x7b) /*\x7b".toList
    let b : OpenBlock := ⟨rule ['b'], .start, []⟩
    (opensBlock 0 ('a' :: (selector ++ ['{', '}'])) = true ∧
      ∃ pos', run ('a' :: (selector ++ ['{', '}'])) .start [] [b] =
        run ['}'] pos' [] [⟨rule ('a' :: selector), .start, []⟩, b]) ∧
    (opensBlock 0 ('a' :: ':' :: value) = false ∧
      run ('a' :: ':' :: value) .start [] [b] =
        run [] (Text.Position.start.after ('a' :: ':' :: value))
          [.mk (declaration ['a'] value) .start []] [b]) := by
  intro selector value b
  constructor
  · have hopens : opensBlock 0 ('a' :: (selector ++ ['{', '}'])) = true := by decide +kernel
    have htext : readUntil headStops 0 ('a' :: (selector ++ ['{', '}'])) =
      ('a' :: selector, ['{', '}']) := by decide +kernel
    have hstarts : Starts 'a' (selector ++ ['{', '}']) :=
      ⟨by decide, by decide, by decide, by decide, by simp⟩
    obtain ⟨text, rest, hread, -, hrule, -⟩ := opensBlock_decides .start [] hstarts
      (by decide +kernel) (List.cons_ne_nil b [])
    obtain ⟨body, pos', rfl, hrun⟩ := hrule hopens
    obtain ⟨rfl, hbody⟩ := Prod.mk.inj (htext.symm.trans hread)
    obtain ⟨-, rfl⟩ := List.cons.inj hbody
    exact ⟨hopens, pos', hrun⟩
  · have hopens : opensBlock 0 ('a' :: ':' :: value) = false := by decide +kernel
    have htext : readUntil headStops 0 ('a' :: ':' :: value) = ('a' :: ':' :: value, []) := by
      decide +kernel
    have hname : readUntil propertyStops 0 ('a' :: ':' :: value) = (['a'], ':' :: value) := by
      decide +kernel
    have hstarts : Starts 'a' (':' :: value) :=
      ⟨by decide, by decide, by decide, by decide, by simp⟩
    obtain ⟨text, rest, hread, -, -, hdeclaration⟩ := opensBlock_decides .start [] hstarts
      (by decide +kernel) (List.cons_ne_nil b [])
    obtain ⟨rfl, rfl⟩ := Prod.mk.inj (htext.symm.trans hread)
    obtain ⟨-, ⟨hcolon, -⟩ | ⟨property, v, -, hcolon, hrun⟩⟩ := hdeclaration hopens
    · exact absurd (congrArg Prod.snd (hname.symm.trans hcolon)) (List.cons_ne_nil _ _)
    · obtain ⟨rfl, hv⟩ := Prod.mk.inj (hname.symm.trans hcolon)
      obtain rfl : value = v := by simpa using hv
      exact ⟨hopens, hrun⟩

end Statement

end CssTheming.Sheet
