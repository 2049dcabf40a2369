import CssTheming.Proofs.Sheet.Printing

/-!
# What the reader makes

Every statement that the reader makes is well formed: trimming and collapsing what was trimmed or
collapsed changes nothing, only what shows its body has one, and declarations stand in blocks.
-/

namespace CssTheming.Sheet

open Statement

/-! ## Kinds -/

variable {inBlock : Bool} {c : Char} {r s t : List Char}

/-- A statement that does not start like another one does not do so with the rest of it changed, if
no star comes to stand behind its first character. -/
theorem startsOther_of_starts (hc : Starts c r) (hr : t.head? = some '*' → r.head? = some '*') :
    startsOther (c :: t) = false := by
  obtain ⟨-, hsemi, hbrace, hat, hcomment⟩ := hc
  unfold startsOther
  split
  · exact absurd (List.cons.inj ‹_›).1 hat
  · exact absurd (List.cons.inj ‹_›).1 hsemi
  · exact absurd (List.cons.inj ‹_›).1 hbrace
  · obtain ⟨rfl, rfl⟩ := List.cons.inj ‹_›
    exact absurd ⟨rfl, hr rfl⟩ hcomment
  · rfl

/-- What is read of a statement is nothing or begins as the statement does. -/
theorem eq_nil_or_exists_cons {rest : List Char} (h : s ++ rest = c :: r) :
    s = [] ∨ ∃ s', s = c :: s' ∧ ∀ d ∈ s'.head?, d ∈ r.head? := by
  cases s with
  | nil => exact .inl rfl
  | cons d s =>
    obtain ⟨rfl, rfl⟩ := List.cons.inj h
    refine .inr ⟨s, rfl, fun e he => ?_⟩
    obtain ⟨u, rfl⟩ := List.head?_eq_some_iff.1 he
    rfl

theorem formed_rule {rest : List Char} (hc : Starts c r)
    (h : readUntil headStops 0 (c :: r) = (s, rest)) : (rule s).Formed inBlock := by
  refine ⟨by simp [Text.collapse_collapse], ?_⟩
  have happend := readUntil_append headStops 0 (c :: r)
  rw [h] at happend
  rw [String.toList_ofList]
  rcases eq_nil_or_exists_cons happend with rfl | ⟨s', rfl, hhead⟩
  · rfl
  · obtain ⟨u, hu, hsecond⟩ := Text.exists_collapse_cons hc.1 s'
    rw [hu]
    refine startsOther_of_starts hc fun hstar => ?_
    exact hhead _ ((hsecond '*' hstar).resolve_left (by decide))

theorem formed_atRule (h : (r.takeWhile isNameChar).isEmpty = false) (s : List Char)
    (hasBlock : Bool) : (atRule (r.takeWhile isNameChar) s hasBlock).Formed inBlock := by
  refine ⟨by simpa using h, ?_, by simp [Text.trim_trim]⟩
  rw [String.toList_ofList]
  exact fun c hc => List.all_eq_true.1 List.all_takeWhile c hc

theorem formed_comment {rest : List Char} (h : Text.comment? r = some (t, rest)) :
    (Kind.comment (String.ofList t)).Formed inBlock := by
  have hfree := Text.not_occursIn_of_comment? h
  simpa [Kind.Formed, Text.contains] using hfree

/-- Importance is taken off the end of a value, or there is none. -/
theorem splitImportant_cases (s : List Char) :
    splitImportant s = (s, false) ∨ ∃ front gap mark, s = front ++ '!' :: (gap ++ mark) ∧
      (∀ c ∈ gap, Text.isWhitespace c = true) ∧ mark.map Char.toLower = "important".toList ∧
      splitImportant s = (Text.trimEnd front, true) := by
  unfold splitImportant
  dsimp only
  split
  · rename_i h
    rw [Bool.and_eq_true, List.isSuffixOf_iff_suffix, beq_iff_eq] at h
    obtain ⟨⟨u, hu⟩, hlast⟩ := h
    obtain ⟨v, mark, rfl, hv, hmark⟩ := List.map_eq_append_iff.1 hu.symm
    have hlen : (v ++ mark).length - "important".toList.length = v.length := by
      rw [← hmark, List.length_append, List.length_map, Nat.add_sub_cancel]
    rw [hlen, List.take_left] at hlast ⊢
    obtain ⟨front, hfront⟩ := List.getLast?_eq_some_iff.1 hlast
    refine .inr ⟨front, Text.trailing v, mark, ?_, fun c => Text.isWhitespace_of_mem_trailing,
      hmark, by rw [hfront, List.dropLast_concat]⟩
    calc
      v ++ mark = Text.trimEnd v ++ Text.trailing v ++ mark := by
        rw [Text.trimEnd_append_trailing]
      _ = front ++ '!' :: (Text.trailing v ++ mark) := by
        rw [hfront]
        simp
  · exact .inl rfl

theorem formed_declaration {rest : List Char} (hc : Starts c r)
    (h : readUntil propertyStops 0 (c :: r) = (s, rest)) (hname : (Text.trim s).isEmpty = false)
    (value : List Char) : (declaration s value).Formed true := by
  have happend := readUntil_append propertyStops 0 (c :: r)
  rw [h] at happend
  have hproperty : Text.trim s ≠ [] ∧ startsOther (Text.trim s) = false := by
    rcases eq_nil_or_exists_cons happend with rfl | ⟨s', rfl, hhead⟩
    · simp [Text.trim, Text.trimStart, Text.trimEnd] at hname
    · obtain ⟨u, hu, hsecond⟩ := Text.exists_trim_cons hc.1 s'
      rw [hu]
      exact ⟨by simp, startsOther_of_starts hc fun hstar => hhead _ (hsecond '*' hstar)⟩
  have htrim := Text.trim_trim value
  rcases splitImportant_cases (Text.trim value) with
    hplain | ⟨front, gap, mark, hvalue, -, -, hbang⟩
  · simp only [declaration, hplain]
    refine ⟨rfl, ⟨?_, ?_, ?_⟩, ?_, fun _ => ?_⟩ <;>
      simp [Text.trim_trim, hproperty, hplain]
  · simp only [declaration, hbang]
    refine ⟨rfl, ⟨?_, ?_, ?_⟩, ?_, fun hplain => by cases hplain⟩
    · simpa using hproperty.1
    · simp [Text.trim_trim]
    · simpa using hproperty.2
    · -- What is left of a trimmed value begins as the value does.
      rw [hvalue, ← Text.trimEnd_append_trailing front, List.append_assoc] at htrim
      rw [String.toList_ofList]
      exact Text.trim_of_append htrim (Text.trimEnd_trimEnd front)

/-! ## Runs -/

theorem starts_of_not (hspace : ¬(Text.isWhitespace c = true ∨ c = ';')) (hbrace : c ≠ '}')
    (hat : c ≠ '@') (hcomment : ¬(c = '/' ∧ r.head? = some '*')) : Starts c r := by
  rw [not_or] at hspace
  exact ⟨by simpa using hspace.1, hspace.2, hbrace, hat, hcomment⟩

/-- Outside of all blocks everything else is taken for a rule. -/
theorem isEmpty_of_not_opens {blocks : List OpenBlock}
    (h : ¬(blocks.isEmpty || opensBlock 0 (c :: r)) = true) : (!blocks.isEmpty) = true := by
  cases blocks with
  | nil => simp at h
  | cons b bs => rfl

variable {pos : Text.Position} {inner top : List Statement} {blocks : List OpenBlock}

/-- What holds of the statements and the open blocks at the start of a run, and is kept when a
statement is read, a block is opened or one is closed, holds at its end. -/
theorem run_invariant {P : List Statement → List OpenBlock → Prop}
    (hleaf : ∀ {inner blocks kind} (pos), kind.Formed (!blocks.isEmpty) → P inner blocks →
      P (.mk kind pos [] :: inner) blocks)
    (hopen : ∀ {inner blocks kind} (pos), kind.Formed (!blocks.isEmpty) → kind.showsBody = true →
      P inner blocks → P [] (⟨kind, pos, inner⟩ :: blocks))
    (hclose : ∀ {inner b blocks}, P inner (b :: blocks) → P (b.close inner) blocks)
    (hstart : P inner blocks) (h : run s pos inner blocks = .ok top) : P top.reverse [] := by
  fun_induction run s pos inner blocks with
  | case1 =>
    cases h
    rwa [List.reverse_reverse]
  | case3 =>
    rename_i ih
    exact ih hstart h
  | case5 =>
    rename_i ih
    exact ih (hclose hstart) h
  | case7 =>
    rename_i hcomment ih
    exact ih (hleaf _ (formed_comment hcomment) hstart) h
  | case9 =>
    rename_i hname _ _ _ _ _ _ ih
    exact ih (hopen _ (formed_atRule (Bool.eq_false_iff.2 hname) _ true) rfl hstart) h
  | case10 =>
    rename_i hname _ _ _ _ _ _ ih
    exact ih (hleaf _ (formed_atRule (Bool.eq_false_iff.2 hname) _ false) hstart) h
  | case11 =>
    rename_i hname _ _ _ _ _ _ _ _ ih
    exact ih (hleaf _ (formed_atRule (Bool.eq_false_iff.2 hname) _ false) hstart) h
  | case12 =>
    rename_i hspace hbrace hcomment hat _ _ _ hread ih
    have hc := starts_of_not hspace hbrace hat hcomment
    exact ih (hopen _ (formed_rule hc hread) rfl hstart) h
  | case15 =>
    rename_i hspace hbrace hcomment hat hblock _ _ hread hname _ _ _ ih
    have hc := starts_of_not hspace hbrace hat hcomment
    have hin := isEmpty_of_not_opens hblock
    refine ih (hleaf _ ?_ hstart) h
    rw [hin]
    exact formed_declaration hc hread (Bool.eq_false_iff.2 hname) _
  | case16 =>
    rename_i hspace hbrace hcomment hat hblock _ _ hread hname _ _ _ _ ih
    have hc := starts_of_not hspace hbrace hat hcomment
    have hin := isEmpty_of_not_opens hblock
    refine ih (hleaf _ ?_ hstart) h
    rw [hin]
    exact formed_declaration hc hread (Bool.eq_false_iff.2 hname) _
  | _ => simp at h

/-- The statements that were read so far are well formed, and so are the blocks that are open. -/
def Pending : List Statement → List OpenBlock → Prop
  | inner, [] => ∀ st ∈ inner, st.Formed false
  | inner, b :: bs => (∀ st ∈ inner, st.Formed true) ∧ b.kind.showsBody = true ∧
    b.kind.Formed (!bs.isEmpty) ∧ Pending b.outer bs

theorem Pending.cons {st : Statement} (h : Pending inner blocks)
    (hst : st.Formed (!blocks.isEmpty)) : Pending (st :: inner) blocks := by
  cases blocks with
  | nil => exact List.forall_mem_cons.2 ⟨hst, h⟩
  | cons b bs => exact ⟨List.forall_mem_cons.2 ⟨hst, h.1⟩, h.2⟩

theorem allFormed_iff {ss : List Statement} :
    AllFormed inBlock ss ↔ ∀ st ∈ ss, st.Formed inBlock := by
  induction ss with
  | nil => simp [AllFormed]
  | cons st ss ih => simp [AllFormed, ih]

theorem allFormed_reverse {ss : List Statement} (h : ∀ st ∈ ss, st.Formed inBlock) :
    AllFormed inBlock ss.reverse :=
  allFormed_iff.2 fun st hst => h st (List.mem_reverse.1 hst)

/-- Whatever is read is well formed. -/
theorem allFormed_of_run (h : run s pos [] [] = .ok top) : AllFormed false top := by
  have hpending : Pending top.reverse [] := by
    refine run_invariant (P := Pending) (fun pos hkind hpending => hpending.cons ?_)
      (fun pos hkind hshows hpending => ⟨by simp, hshows, hkind, hpending⟩) ?_ (by simp [Pending]) h
    · exact ⟨hkind, .inr rfl, trivial⟩
    · intro inner b blocks ⟨hinner, hshows, hkind, houter⟩
      exact houter.cons ⟨hkind, .inl hshows, allFormed_reverse hinner⟩
  rw [← List.reverse_reverse top]
  exact allFormed_reverse hpending

theorem exists_of_parse {source path : String} {u : Sheet} (h : parse source path = .ok u) :
    ∃ top, run source.toList .start [] [] = .ok top ∧ u = ofStatements path top := by
  rw [parse, statements] at h
  split at h
  · rename_i top htop
    exact ⟨top, htop, (Except.ok.inj h).symm⟩
  · cases h

/-- The statements of a parsed stylesheet are well formed. -/
theorem allFormed_of_parse {source path : String} {u : Sheet} (h : parse source path = .ok u) :
    AllFormed false (u.body root) := by
  obtain ⟨top, hrun, rfl⟩ := exists_of_parse h
  rw [body_ofStatements]
  exact allFormed_of_run hrun

end CssTheming.Sheet
