import CssTheming.Proofs.Sheet.Closed
import CssTheming.Proofs.Text.Whitespace
import CssTheming.Text.Part

/-!
# Printed statements read back

The printer puts a brace, a colon or a semicolon right behind the texts of a statement. A text that
stands in front of it, closed and free of the characters that end it, is read as it is, and so a
statement whose kind the reader could have made is read as that kind.
-/

namespace CssTheming.Sheet

/-- Starts of statements that are neither rules nor declarations. -/
def startsOther : List Char → Bool
  | '@' :: _ | ';' :: _ | '}' :: _ | '/' :: '*' :: _ => true
  | _ => false

/-- Parameters as they stand behind a name. -/
def paramsText (params : List Char) : List Char := if params = [] then [] else ' ' :: params

/-- How importance is written behind a value. -/
def bang : List Char := " !important".toList

/-- A value with its importance, as it stands between the colon and the semicolon. -/
def valueText (value : List Char) (important : Bool) : List Char :=
  ' ' :: (value ++ if important then bang else [])

namespace Kind

/-- Only these kinds show what is inside them. -/
def showsBody : Kind → Bool
  | .root | .rule _ | .atRule _ _ true => true
  | _ => false

/-- What the reader makes of a statement: its texts are trimmed or collapsed, and it does not start
like another one. Declarations stand in blocks. -/
def Formed (inBlock : Bool) : Kind → Prop
  | .root => False
  | .rule selector =>
    Text.collapse selector.toList = selector.toList ∧ startsOther selector.toList = false
  | .atRule name params _ =>
    name.toList ≠ [] ∧ (∀ c ∈ name.toList, isNameChar c) ∧ Text.trim params.toList = params.toList
  | .declaration property value important =>
    inBlock ∧
      (property.toList ≠ [] ∧ Text.trim property.toList = property.toList ∧
        startsOther property.toList = false) ∧
      Text.trim value.toList = value.toList ∧
      (important = false → splitImportant value.toList = (value.toList, false))
  | .comment text => Text.contains text "*/" = false

/-- The texts whose ends the reader has to find, as they are printed, each with the characters that
end it. -/
def pieces : Kind → List (List Char × List Char)
  | .root | .comment _ => []
  | .rule selector => [(headStops, selector.toList ++ [' '])]
  | .atRule _ params hasBlock =>
    [(headStops, paramsText params.toList ++ if hasBlock then [' '] else [])]
  | .declaration property value important =>
    [(propertyStops, property.toList), (headStops, valueText value.toList important)]

/-- The reader finds every end. -/
def Ends (kind : Kind) : Prop := ∀ piece ∈ kind.pieces, Stands piece.1 piece.2

instance (kind : Kind) : Decidable kind.Ends := List.decidableBAll _ kind.pieces

theorem ends_rule {selector : String} :
    (rule selector).Ends ↔ Stands headStops (selector.toList ++ [' ']) :=
  List.forall_mem_singleton

theorem ends_atRule {name params : String} {hasBlock : Bool} :
    (atRule name params hasBlock).Ends ↔
      Stands headStops (paramsText params.toList ++ if hasBlock then [' '] else []) :=
  List.forall_mem_singleton

theorem ends_declaration {property value : String} {important : Bool} :
    (declaration property value important).Ends ↔ Stands propertyStops property.toList ∧
      Stands headStops (valueText value.toList important) := by
  simp [Ends, pieces]

end Kind

namespace Statement

mutual
/-- A statement without its positions. -/
def shape : Statement → Statement
  | .mk kind _ body => .mk kind nowhere (shapes body)

def shapes : List Statement → List Statement
  | [] => []
  | s :: ss => s.shape :: shapes ss
end

@[simp] theorem shapes_append (ss ts : List Statement) :
    shapes (ss ++ ts) = shapes ss ++ shapes ts := by
  induction ss with
  | nil => rfl
  | cons s ss ih => simp [shapes, ih]

end Statement

/-! ## Reading single statements -/

variable {pos : Text.Position} {inner : List Statement} {blocks : List OpenBlock}

theorem run_cons_space {c : Char} (hc : Text.isWhitespace c = true) (r : List Char) :
    run (c :: r) pos inner blocks = run r (pos.next c) inner blocks := by
  rw [run.eq_def]
  exact if_pos (.inl hc)

theorem run_close (r : List Char) (b : OpenBlock) :
    run ('}' :: r) pos inner (b :: blocks) = run r (pos.next '}') (b.close inner) blocks := by
  rw [run.eq_def]
  dsimp only
  rw [if_neg (by decide), if_pos rfl]

variable (pos inner blocks)

theorem run_comment_eq (r : List Char) : run ('/' :: '*' :: r) pos inner blocks =
    match Text.comment? r with
    | none => .error (pos.line, .unclosedComment)
    | some (text, rest) => run rest (pos.after ('/' :: '*' :: text ++ ['*', '/']))
        (.mk (.comment (String.ofList text)) pos [] :: inner) blocks := by
  rw [run.eq_def]
  dsimp only
  rw [if_neg (by decide), if_neg (by decide), if_pos ⟨rfl, rfl⟩]
  split <;> rename_i h <;> rw [List.tail_cons] at h <;> rw [h]

theorem run_comment {text r rest : List Char} (h : Text.comment? r = some (text, rest)) :
    ∃ pos', run ('/' :: '*' :: r) pos inner blocks =
      run rest pos' (.mk (.comment (String.ofList text)) pos [] :: inner) blocks :=
  ⟨_, by rw [run_comment_eq, h]⟩

section AtRule

variable {r text rest : List Char}

theorem run_atRule_eq (r : List Char) : run ('@' :: r) pos inner blocks =
    if (r.takeWhile isNameChar).isEmpty then .error (pos.line, .namelessAtRule)
    else
      match readUntil headStops 0 (r.dropWhile isNameChar) with
      | (text, '{' :: t) => run t (pos.after ('@' :: r.takeWhile isNameChar ++ text ++ ['{'])) []
          (⟨atRule (r.takeWhile isNameChar) text true, pos, inner⟩ :: blocks)
      | (text, ';' :: t) => run t (pos.after ('@' :: r.takeWhile isNameChar ++ text ++ [';']))
          (.mk (atRule (r.takeWhile isNameChar) text false) pos [] :: inner) blocks
      | (text, t) => run t (pos.after ('@' :: r.takeWhile isNameChar ++ text))
          (.mk (atRule (r.takeWhile isNameChar) text false) pos [] :: inner) blocks := by
  rw [run.eq_def]
  dsimp only
  rw [if_neg (by decide), if_neg (by decide), if_neg (fun hc => absurd hc.1 (by decide)),
    if_pos rfl]
  split
  · rfl
  · split <;> simp_all only

theorem run_atRule_block (hname : r.takeWhile isNameChar ≠ [])
    (h : readUntil headStops 0 (r.dropWhile isNameChar) = (text, '{' :: rest)) :
    ∃ pos', run ('@' :: r) pos inner blocks =
      run rest pos' [] (⟨atRule (r.takeWhile isNameChar) text true, pos, inner⟩ :: blocks) := by
  refine ⟨pos.after ('@' :: r.takeWhile isNameChar ++ text ++ ['{']), ?_⟩
  rw [run_atRule_eq, if_neg (by simpa using hname), h]
  rfl

theorem run_atRule_line (hname : r.takeWhile isNameChar ≠ [])
    (h : readUntil headStops 0 (r.dropWhile isNameChar) = (text, ';' :: rest)) :
    ∃ pos', run ('@' :: r) pos inner blocks =
      run rest pos' (.mk (atRule (r.takeWhile isNameChar) text false) pos [] :: inner) blocks := by
  refine ⟨pos.after ('@' :: r.takeWhile isNameChar ++ text ++ [';']), ?_⟩
  rw [run_atRule_eq, if_neg (by simpa using hname), h]
  rfl

theorem stands_cons {stops s : List Char} {c : Char} (hescape : c ≠ '\\')
    (hquote : isQuote c = false) (hslash : c ≠ '/')
    (hdepth : depthAfter 0 c = 0) (hstop : c ∉ stops) (h : Stands stops s) :
    Stands stops (c :: s) := by
  have hunit : unit c s = ([c], s) := unit_single hescape hquote fun hc => hslash hc.1
  refine ⟨?_, ?_⟩
  · rw [isClosed, closes, hunit, hdepth, unitCloses, if_neg hescape, if_neg (by simp [hquote]),
      if_neg fun hc => hslash hc.1]
    exact h.1
  · rw [isFreeOf, readUntil_cons, if_neg fun hc => hstop hc.2, hunit, hdepth]
    exact h.2

/-- A name ends in front of parameters. -/
theorem startsOff_paramsText (params : List Char) {t : List Char}
    (ht : Text.StartsOff isNameChar t) : Text.StartsOff isNameChar (paramsText params ++ t) := by
  rw [paramsText]
  split
  · exact ht
  · simp [Text.StartsOff, show isNameChar ' ' = false from rfl]

theorem trim_paramsText {params : List Char} (h : Text.trim params = params) :
    Text.trim (paramsText params) = params := by
  rw [paramsText]
  split
  · rename_i hnil
    rw [hnil]
    rfl
  · rw [Text.trim_cons_space (by decide), h]

end AtRule

section Rule

/-- A rule or a declaration may start here. -/
def Starts (c : Char) (r : List Char) : Prop :=
  Text.isWhitespace c = false ∧ c ≠ ';' ∧ c ≠ '}' ∧ c ≠ '@' ∧ ¬(c = '/' ∧ r.head? = some '*')

theorem starts_of_startsOther {c : Char} {s t : List Char} (hspace : Text.isWhitespace c = false)
    (h : startsOther (c :: s) = false) (ht : NoStar t) : Starts c (s ++ t) := by
  refine ⟨hspace, ?_, ?_, ?_, ?_⟩
  · rintro rfl
    simp [startsOther] at h
  · rintro rfl
    simp [startsOther] at h
  · rintro rfl
    simp [startsOther] at h
  · apply ht.not_comment
    rintro ⟨rfl, hs⟩
    cases s with
    | nil => simp at hs
    | cons d s =>
      obtain rfl : d = '*' := by simpa using hs
      simp [startsOther] at h

theorem run_rule_eq {c : Char} {r : List Char} (hc : Starts c r)
    (hblock : (blocks.isEmpty || opensBlock 0 (c :: r)) = true) :
    run (c :: r) pos inner blocks =
      match readUntil headStops 0 (c :: r) with
      | (text, '{' :: t) => run t (pos.after (text ++ ['{'])) [] (⟨rule text, pos, inner⟩ :: blocks)
      | (text, _) => .error (pos.line, .selectorWithoutBlock (shown text)) := by
  obtain ⟨hspace, hsemi, hbrace, hat, hcomment⟩ := hc
  rw [run.eq_def]
  dsimp only
  rw [if_neg (by simp [hspace, hsemi]), if_neg hbrace, if_neg hcomment, if_neg hat, if_pos hblock]
  split <;> simp_all only

theorem run_rule {c : Char} {r text rest : List Char} (hc : Starts c r)
    (hblock : (blocks.isEmpty || opensBlock 0 (c :: r)) = true)
    (h : readUntil headStops 0 (c :: r) = (text, '{' :: rest)) :
    ∃ pos', run (c :: r) pos inner blocks = run rest pos' []
      (⟨rule text, pos, inner⟩ :: blocks) := by
  refine ⟨pos.after (text ++ ['{']), ?_⟩
  rw [run_rule_eq pos inner blocks hc hblock, h]
  rfl

theorem run_declaration_eq {c : Char} {r : List Char} (hc : Starts c r)
    (hblock : (blocks.isEmpty || opensBlock 0 (c :: r)) = false) :
    run (c :: r) pos inner blocks =
      match readUntil propertyStops 0 (c :: r) with
      | (property, ':' :: t) =>
        if (Text.trim property).isEmpty then .error (pos.line, .namelessDeclaration)
        else
          match readUntil valueStops 0 t with
          | (value, ';' :: u) => run u (pos.after (property ++ ':' :: value ++ [';']))
              (.mk (declaration property value) pos [] :: inner) blocks
          | (value, u) => run u (pos.after (property ++ ':' :: value))
              (.mk (declaration property value) pos [] :: inner) blocks
      | (property, _) => .error (pos.line, .notADeclaration (shown property)) := by
  obtain ⟨hspace, hsemi, hbrace, hat, hcomment⟩ := hc
  rw [run.eq_def]
  dsimp only
  rw [if_neg (by simp [hspace, hsemi]), if_neg hbrace, if_neg hcomment, if_neg hat,
    if_neg (by simp [hblock])]
  split
  · rename_i h
    simp only [h]
    congr 1
    split <;> simp_all only
  · simp_all only

theorem run_declaration {c : Char} {r property value t rest : List Char} (hc : Starts c r)
    (hblock : (blocks.isEmpty || opensBlock 0 (c :: r)) = false)
    (hproperty : readUntil propertyStops 0 (c :: r) = (property, ':' :: t))
    (hname : Text.trim property ≠ [])
    (hvalue : readUntil valueStops 0 t = (value, ';' :: rest)) :
    ∃ pos', run (c :: r) pos inner blocks = run rest pos'
      (.mk (declaration property value) pos [] :: inner) blocks := by
  refine ⟨pos.after (property ++ ':' :: value ++ [';']), ?_⟩
  rw [run_declaration_eq pos inner blocks hc hblock, hproperty]
  refine (if_neg (by simpa using hname)).trans ?_
  rw [hvalue]
  rfl

end Rule

/-! ## Importance -/

theorem trim_append_bang {value : List Char} (h : Text.trim value = value) (hne : value ≠ []) :
    Text.trim (value ++ bang) = value ++ bang := by
  obtain ⟨c, v, rfl⟩ := List.exists_cons_of_ne_nil hne
  have hlast : bang = " !importan".toList ++ ['t'] := by decide
  rw [Text.trim, List.cons_append,
    Text.trimStart_cons_of_not (Text.not_isWhitespace_of_trim_cons h), hlast,
    ← List.append_assoc, ← List.cons_append]
  exact Text.trimEnd_concat_of_not (by decide) _

theorem splitImportant_append_bang {value : List Char} (h : Text.trim value = value) :
    splitImportant (value ++ bang) = (value, true) := by
  have hbang : bang = [' ', '!'] ++ "important".toList := by decide
  have hhead : Text.trimEnd
      ((value ++ bang).take ((value ++ bang).length - "important".toList.length)) = value ++
      [' ', '!'] := by
    rw [hbang, ← List.append_assoc, List.length_append, Nat.add_sub_cancel, List.take_left]
    rw [List.append_cons]
    exact Text.trimEnd_concat_of_not (by decide) _
  have hsuffix : "important".toList.isSuffixOf ((value ++ bang).map Char.toLower) = true := by
    rw [List.isSuffixOf_iff_suffix, hbang, ← List.append_assoc, List.map_append]
    exact List.suffix_append _ _
  rw [splitImportant, hhead, hsuffix, if_pos (by simp), List.append_cons, List.dropLast_concat,
    Text.trimEnd_append_space (by decide), Text.trimEnd_of_trim h]

theorem declaration_bang {property value : List Char} (h : Text.trim value = value)
    (hp : Text.trim property = property) :
    declaration property (' ' :: (value ++ bang)) = .declaration (String.ofList property)
      (String.ofList value) true := by
  rw [declaration, Text.trim_cons_space (by decide), hp]
  by_cases hne : value = []
  · subst hne
    rfl
  · rw [trim_append_bang h hne, splitImportant_append_bang h]

theorem declaration_plain (property : List Char) {value : List Char}
    (h : Text.trim value = value) (hvalue : splitImportant value = (value, false)) :
    declaration property (' ' :: value) = .declaration (String.ofList (Text.trim property))
      (String.ofList value) false := by
  rw [declaration, Text.trim_cons_space (by decide), h, hvalue]

/-! ## Texts of statements -/

/-- At the top or in a block, a text is read as some statements, positions aside. -/
def ReadsAs (inBlock : Bool) (s : List Char) (ss : List Statement) : Prop :=
  ∀ (rest : List Char) (pos : Text.Position) (inner : List Statement) (blocks : List OpenBlock),
    blocks.isEmpty = !inBlock →
      ∃ pos' ss', Statement.shapes ss' = Statement.shapes ss ∧
        run (s ++ rest) pos inner blocks = run rest pos' (ss'.reverse ++ inner) blocks

/-- A text in front of a brace is the head of a statement with a block. -/
def OpensAs (inBlock : Bool) (s : List Char) (kind : Kind) : Prop :=
  ∀ (rest : List Char) (pos : Text.Position) (inner : List Statement) (blocks : List OpenBlock),
    blocks.isEmpty = !inBlock →
      ∃ pos' pos'', run (s ++ '{' :: rest) pos inner blocks =
        run rest pos' [] (⟨kind, pos'', inner⟩ :: blocks)

variable {inBlock : Bool} {s t : List Char} {ss ts : List Statement}

theorem ReadsAs.append (hs : ReadsAs inBlock s ss) (ht : ReadsAs inBlock t ts) :
    ReadsAs inBlock (s ++ t) (ss ++ ts) := by
  intro rest pos inner blocks hblocks
  obtain ⟨pos₁, ss', hss, h₁⟩ := hs (t ++ rest) pos inner blocks hblocks
  obtain ⟨pos₂, ts', hts, h₂⟩ := ht rest pos₁ (ss'.reverse ++ inner) blocks hblocks
  refine ⟨pos₂, ss' ++ ts', ?_, ?_⟩
  · rw [Statement.shapes_append, Statement.shapes_append, hss, hts]
  · rw [List.append_assoc, h₁, h₂, List.reverse_append, List.append_assoc]

theorem readsAs_nil : ReadsAs inBlock [] [] := fun _ pos _ _ _ => ⟨pos, [], rfl, rfl⟩

theorem readsAs_space {c : Char} (hc : Text.isWhitespace c = true) : ReadsAs inBlock [c] [] :=
  fun rest pos _ _ _ => ⟨pos.next c, [], rfl, run_cons_space hc rest⟩

theorem readsAs_indent (depth : Nat) : ReadsAs inBlock (Statement.indent depth).toList [] := by
  rw [Statement.indent, String.toList_ofList]
  generalize 2 * depth = n
  induction n with
  | zero => exact readsAs_nil
  | succ n ih => exact (readsAs_space (by decide)).append ih

theorem OpensAs.block {kind : Kind} (hhead : OpensAs inBlock s kind) (hbody : ReadsAs true t ss)
    (pos : Text.Position) :
    ReadsAs inBlock (s ++ '{' :: (t ++ ['}'])) [.mk kind pos ss] := by
  intro rest pos₀ inner blocks hblocks
  obtain ⟨pos₁, pos₂, h₁⟩ := hhead (t ++ '}' :: rest) pos₀ inner blocks hblocks
  obtain ⟨pos₃, ss', hss, h₃⟩ := hbody ('}' :: rest) pos₁ [] (⟨kind, pos₂, inner⟩ :: blocks) rfl
  refine ⟨pos₃.next '}', [.mk kind pos₂ ss'], ?_, ?_⟩
  · simp [Statement.shapes, Statement.shape, hss]
  · calc
      run ((s ++ '{' :: (t ++ ['}'])) ++ rest) pos₀ inner blocks
        = run (s ++ '{' :: (t ++ '}' :: rest)) pos₀ inner blocks := by simp
      _ = run ('}' :: rest) pos₃ (ss'.reverse ++ [])
        (⟨kind, pos₂, inner⟩ :: blocks) := by rw [h₁, h₃]
      _ = run rest (pos₃.next '}') ([Statement.mk kind pos₂ ss'].reverse ++ inner) blocks := by
        rw [run_close]
        simp [OpenBlock.close]

/-- A text that starts off white space, with the space in front of the brace. -/
theorem opensAs_head {c : Char} (hspace : Text.isWhitespace c = false)
    (hstands : Stands headStops (c :: s ++ [' '])) (hother : startsOther (c :: s) = false) :
    OpensAs inBlock (c :: s ++ [' ']) (rule (c :: s ++ [' '])) := by
  intro rest pos inner blocks _
  have hread := hstands.readUntil_eq (by decide : '{' ∈ headStops) (by decide) rest
  have hopens : opensBlock 0 (c :: s ++ [' '] ++ '{' :: rest) = true := by
    rw [hstands.opensBlock_eq (by simp [NoStar]), opensBlock_brace]
  have hstarts : Starts c (s ++ ' ' :: '{' :: rest) :=
    starts_of_startsOther hspace hother (by simp [NoStar])
  simp only [List.append_assoc, List.cons_append, List.nil_append] at hread hopens ⊢
  obtain ⟨pos', hrun⟩ := run_rule pos inner blocks hstarts (by simp [hopens]) hread
  exact ⟨pos', pos, hrun⟩

theorem opensAs_rule {selector : String} (h : (Kind.rule selector).Formed inBlock)
    (hends : (Kind.rule selector).Ends) :
    OpensAs inBlock (selector.toList ++ [' ']) (.rule selector) := by
  obtain ⟨hcollapse, hother⟩ := h
  have hstands := Kind.ends_rule.1 hends
  have hkind : rule (selector.toList ++ [' ']) = .rule selector := by
    rw [rule, Text.collapse_append_space (by decide), hcollapse, String.ofList_toList]
  generalize selector.toList = s at *
  cases s with
  | nil =>
    -- The reader skips the space in front of the brace, so the selector that it sees is empty, too.
    intro rest pos inner blocks _
    have hempty : rule [] = .rule selector := by rw [← hkind]; rfl
    have hread : readUntil headStops 0 ('{' :: rest) = ([], '{' :: rest) := by
      rw [readUntil_cons, if_pos ⟨rfl, by decide⟩]
    obtain ⟨pos', hrun⟩ := run_rule (pos.next ' ') inner blocks
      ⟨by decide, by decide, by decide, by decide, by simp⟩ (by simp [opensBlock_brace]) hread
    refine ⟨pos', pos.next ' ', ?_⟩
    rw [List.nil_append, List.singleton_append, run_cons_space (by decide), hrun, hempty]
  | cons c s =>
    have hopens : OpensAs inBlock (c :: s ++ [' ']) (rule (c :: s ++ [' '])) :=
      opensAs_head (Text.not_isWhitespace_of_collapse_cons hcollapse) hstands hother
    rwa [hkind] at hopens

theorem opensAs_atRule {name params : String} (h : (Kind.atRule name params true).Formed inBlock)
    (hends : (Kind.atRule name params true).Ends) :
    OpensAs inBlock ('@' :: (name.toList ++ (paramsText params.toList ++ [' '])))
      (.atRule name params true) := by
  obtain ⟨hne, hname, htrim⟩ := h
  intro rest pos inner blocks _
  have hhead : Stands headStops (paramsText params.toList ++ [' ']) := Kind.ends_atRule.1 hends
  have hstop : isNameChar ' ' = false := rfl
  have hread := hhead.readUntil_eq (by decide : '{' ∈ headStops) (by decide) rest
  have hoff : Text.StartsOff isNameChar ([' '] ++ '{' :: rest) := by simp [Text.StartsOff, hstop]
  obtain ⟨htake, hdrop⟩ :=
    Text.takeWhile_append_of hname (startsOff_paramsText params.toList hoff)
  rw [List.append_assoc, ← hdrop] at hread
  obtain ⟨pos', hrun⟩ := run_atRule_block pos inner blocks (by rwa [htake]) hread
  refine ⟨pos', pos, ?_⟩
  rw [htake, atRule, Text.trim_append_space (by decide), trim_paramsText htrim,
    String.ofList_toList, String.ofList_toList] at hrun
  rw [← hrun]
  simp

theorem readsAs_atRule {name params : String} (h : (Kind.atRule name params false).Formed inBlock)
    (hends : (Kind.atRule name params false).Ends) (pos : Text.Position) :
    ReadsAs inBlock ('@' :: (name.toList ++ (paramsText params.toList ++ [';'])))
      [.mk (.atRule name params false) pos []] := by
  obtain ⟨hne, hname, htrim⟩ := h
  intro rest pos₀ inner blocks _
  have hstands : Stands headStops (paramsText params.toList) := by
    simpa using Kind.ends_atRule.1 hends
  have hread := hstands.readUntil_eq (by decide : ';' ∈ headStops) (by decide) rest
  have hstop : isNameChar ';' = false := rfl
  have hoff : Text.StartsOff isNameChar (';' :: rest) := by simp [Text.StartsOff, hstop]
  obtain ⟨htake, hdrop⟩ :=
    Text.takeWhile_append_of hname (startsOff_paramsText params.toList hoff)
  rw [← hdrop] at hread
  obtain ⟨pos', hrun⟩ := run_atRule_line pos₀ inner blocks (by rwa [htake]) hread
  refine ⟨pos', [.mk (.atRule name params false) pos₀ []],
    by simp [Statement.shapes, Statement.shape], ?_⟩
  rw [htake, atRule, trim_paramsText htrim, String.ofList_toList, String.ofList_toList] at hrun
  rw [List.reverse_singleton, List.singleton_append, ← hrun]
  simp

theorem stands_declarationText {property v : List Char} (hprop : Stands propertyStops property)
    (hvalue : Stands headStops v) : Stands headStops (property ++ ':' :: v) :=
  (hprop.of_subset (by decide)).append
    (stands_cons (by decide) (by decide) (by decide) (by decide) (by decide) hvalue)
      (by simp [NoStar])

/-- A property and a value, with a colon in between and a semicolon at the end. -/
theorem readsAs_declarationText {c : Char} {r v : List Char} (hin : inBlock = true)
    (hspace : Text.isWhitespace c = false) (hprop : Stands propertyStops (c :: r))
    (hother : startsOther (c :: r) = false) (hvalue : Stands headStops v) (pos : Text.Position) :
    ReadsAs inBlock (c :: r ++ (':' :: (v ++ [';']))) [.mk (declaration (c :: r) v) pos []] := by
  intro rest pos₀ inner blocks hblocks
  have hproperty :=
    hprop.readUntil_eq (by decide : ':' ∈ propertyStops) (by decide) (v ++ ';' :: rest)
  have hread :=
    (hvalue.of_subset (by decide : valueStops ⊆ headStops)).readUntil_eq
      (by decide : ';' ∈ valueStops) (by decide) rest
  have hall := stands_declarationText hprop hvalue
  have hopens : opensBlock 0 (c :: r ++ ':' :: (v ++ ';' :: rest)) = false := by
    have := hall.opensBlock_eq (by simp [NoStar] : NoStar (';' :: rest))
    rw [opensBlock_semicolon] at this
    rw [← this]
    simp
  have hnonempty : Text.trim (c :: r) ≠ [] := by simp [Text.trim_cons_of_not hspace]
  have hstarts : Starts c (r ++ ':' :: (v ++ ';' :: rest)) :=
    starts_of_startsOther hspace hother (by simp [NoStar])
  have hblock : (blocks.isEmpty || opensBlock 0
      (c :: (r ++ ':' :: (v ++ ';' :: rest)))) = false := by
    rw [hblocks, hin]
    exact hopens
  obtain ⟨pos', hrun⟩ := run_declaration pos₀ inner blocks hstarts hblock hproperty hnonempty hread
  refine ⟨pos', [.mk (declaration (c :: r) v) pos₀ []],
    by simp [Statement.shapes, Statement.shape], ?_⟩
  rw [List.reverse_singleton, List.singleton_append, ← hrun]
  simp

/-- Importance is read again behind a value, and only there. -/
theorem declaration_valueText {property value : String} {important : Bool}
    (h : (Kind.declaration property value important).Formed inBlock) :
    declaration property.toList (valueText value.toList important) =
      .declaration property value important := by
  obtain ⟨-, ⟨-, hptrim, -⟩, htrim, hplain⟩ := h
  cases important with
  | false =>
    rw [valueText, if_neg (by decide), List.append_nil,
      declaration_plain _ htrim (hplain rfl), hptrim]
    simp
  | true =>
    rw [valueText, if_pos rfl, declaration_bang htrim hptrim]
    simp

theorem readsAs_declaration {property value : String} {important : Bool}
    (h : (Kind.declaration property value important).Formed inBlock)
    (hends : (Kind.declaration property value important).Ends) (pos : Text.Position) :
    ReadsAs inBlock (property.toList ++ (':' :: (valueText value.toList important ++ [';'])))
      [.mk (.declaration property value important) pos []] := by
  rw [← declaration_valueText h]
  obtain ⟨hin, ⟨hne, hptrim, hother⟩, -⟩ := h
  obtain ⟨hprop, hvalue⟩ := Kind.ends_declaration.1 hends
  obtain ⟨c, r, hcr⟩ := List.exists_cons_of_ne_nil hne
  rw [hcr] at hprop hptrim hother ⊢
  exact readsAs_declarationText hin (Text.not_isWhitespace_of_trim_cons hptrim) hprop hother
    hvalue pos

theorem readsAs_comment {text : String} (h : (Kind.comment text).Formed inBlock)
    (pos : Text.Position) :
    ReadsAs inBlock ('/' :: '*' :: (text.toList ++ ['*', '/'])) [.mk (.comment text) pos []] := by
  intro rest pos₀ inner blocks _
  obtain ⟨pos', hrun⟩ := run_comment pos₀ inner blocks (Text.comment?_of_not_occursIn h rest)
  refine ⟨pos', [.mk (.comment text) pos₀ []], by simp [Statement.shapes, Statement.shape], ?_⟩
  rw [String.ofList_toList] at hrun
  rw [List.reverse_singleton, List.singleton_append, ← hrun]
  simp

end CssTheming.Sheet
