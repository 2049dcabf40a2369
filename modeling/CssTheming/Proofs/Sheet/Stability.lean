import CssTheming.Proofs.Sheet.Ends
import CssTheming.Proofs.Sheet.Formed

/-!
# Stylesheets read again from their own text

The printer puts a brace, a colon or a semicolon behind every text of a statement. A parsed
stylesheet is read again from what is printed if the reader finds the ends of all these texts. If no
string is ended by a newline, that is the only case: at the first text whose end is not found, the
reader makes another kind of statement than the one that was printed.
-/

namespace CssTheming.Sheet

open Statement

/-! ## What was read so far -/

/-- The kinds of the statements that were read so far, the open blocks included, in order. -/
def emitted : List Statement → List OpenBlock → List Kind
  | inner, [] => allKinds inner.reverse
  | inner, b :: bs => emitted b.outer bs ++ b.kind :: allKinds inner.reverse

variable {inBlock : Bool} {c x : Char} {r s t rest : List Char} {pos : Text.Position}
  {inner ss ts top : List Statement} {blocks : List OpenBlock} {kind : Kind}

@[simp] theorem allKinds_append (ss ts : List Statement) :
    allKinds (ss ++ ts) = allKinds ss ++ allKinds ts := by
  induction ss with
  | nil => rfl
  | cons st ss ih => simp [allKinds, ih]

mutual
theorem kinds_shape : ∀ st : Statement, st.shape.kinds = st.kinds
  | .mk _ _ body => congrArg (_ :: ·) (allKinds_shapes body)

theorem allKinds_shapes : ∀ ss : List Statement, allKinds (shapes ss) = allKinds ss
  | [] => rfl
  | st :: ss => congrArg₂ (· ++ ·) (kinds_shape st) (allKinds_shapes ss)
end

theorem emitted_append (ss inner : List Statement) (blocks : List OpenBlock) :
    emitted (ss.reverse ++ inner) blocks = emitted inner blocks ++ allKinds ss := by
  cases blocks <;> simp [emitted]

theorem emitted_leaf (kind : Kind) (pos : Text.Position) :
    emitted (.mk kind pos [] :: inner) blocks = emitted inner blocks ++ [kind] :=
  emitted_append [.mk kind pos []] inner blocks

theorem emitted_opened (kind : Kind) (pos : Text.Position) :
    emitted [] (⟨kind, pos, inner⟩ :: blocks) = emitted inner blocks ++ [kind] :=
  rfl

theorem emitted_close (inner : List Statement) (b : OpenBlock) :
    emitted (b.close inner) blocks = emitted inner (b :: blocks) := by
  have h := emitted_append [.mk b.kind b.position inner.reverse] b.outer blocks
  simpa [allKinds, kinds, OpenBlock.close, emitted] using h

/-- Reading on only adds to what was read. -/
theorem emitted_prefix_of_run (h : run s pos inner blocks = .ok top) :
    emitted inner blocks <+: allKinds top := by
  have hend := run_invariant
    (P := fun inner' blocks' => emitted inner blocks <+: emitted inner' blocks')
    (fun pos _ hprefix => ?_) (fun pos _ _ hprefix => ?_) (fun hprefix => ?_)
    (List.prefix_refl _) h
  · simpa [emitted] using hend
  · rw [emitted_leaf]
    exact hprefix.trans (List.prefix_append _ _)
  · rw [emitted_opened]
    exact hprefix.trans (List.prefix_append _ _)
  · rwa [emitted_close]

/-! ## What is read next -/

/-- The kind that a run reads next, in front of everything else. -/
def Next (inner : List Statement) (blocks : List OpenBlock) (top : List Statement) (kind : Kind) :
    Prop :=
  emitted inner blocks ++ [kind] <+: allKinds top

theorem Next.unique {kind' : Kind} (h : Next inner blocks top kind)
    (h' : Next inner blocks top kind') : kind = kind' := by
  have heq := (List.prefix_of_prefix_length_le h h' (by simp)).eq_of_length (by simp)
  simpa using heq

theorem next_of_leaf {pos' : Text.Position}
    (h : run s pos' (.mk kind pos [] :: inner) blocks = .ok top) : Next inner blocks top kind := by
  rw [Next, ← emitted_leaf kind pos]
  exact emitted_prefix_of_run h

theorem next_of_opened {pos' : Text.Position}
    (h : run s pos' [] (⟨kind, pos, inner⟩ :: blocks) = .ok top) : Next inner blocks top kind :=
  emitted_prefix_of_run h

theorem next_atRule (h : run ('@' :: r) pos inner blocks = .ok top) :
    ∃ text rest hasBlock, readUntil headStops 0 (r.dropWhile isNameChar) = (text, rest) ∧
      Next inner blocks top (atRule (r.takeWhile isNameChar) text hasBlock) := by
  rw [run_atRule_eq] at h
  split at h
  · cases h
  · split at h <;> rename_i hread
    · exact ⟨_, _, true, hread, next_of_opened h⟩
    · exact ⟨_, _, false, hread, next_of_leaf h⟩
    · exact ⟨_, _, false, hread, next_of_leaf h⟩

theorem next_rule (hc : Starts c r) (hblock : (blocks.isEmpty || opensBlock 0 (c :: r)) = true)
    (h : run (c :: r) pos inner blocks = .ok top) :
    ∃ text rest, readUntil headStops 0 (c :: r) = (text, rest) ∧
      Next inner blocks top (rule text) := by
  rw [run_rule_eq pos inner blocks hc hblock] at h
  split at h <;> rename_i hread
  · exact ⟨_, _, hread, next_of_opened h⟩
  · cases h

theorem next_declaration (hc : Starts c r)
    (hblock : (blocks.isEmpty || opensBlock 0 (c :: r)) = false)
    (h : run (c :: r) pos inner blocks = .ok top) :
    ∃ property t value rest, readUntil propertyStops 0 (c :: r) = (property, ':' :: t) ∧
      readUntil valueStops 0 t = (value, rest) ∧
      Next inner blocks top (declaration property value) := by
  rw [run_declaration_eq pos inner blocks hc hblock] at h
  split at h <;> rename_i hproperty
  · split at h
    · cases h
    · split at h <;> rename_i hvalue
      · exact ⟨_, _, _, _, hproperty, hvalue, next_of_leaf h⟩
      · exact ⟨_, _, _, _, hproperty, hvalue, next_of_leaf h⟩
  · cases h

/-! ## Heads -/

/-- No string in a printed text is ended by a newline. -/
def Kind.KeepsLines (kind : Kind) : Prop := ∀ piece ∈ kind.pieces, keepsLines piece.2 = true

instance (kind : Kind) : Decidable kind.KeepsLines :=
  inferInstanceAs (Decidable (∀ piece ∈ kind.pieces, keepsLines piece.2 = true))

theorem visible_paramsText (params : List Char) :
    Text.visible (paramsText params) = Text.visible params := by
  rw [paramsText]
  split
  · rename_i h
    rw [h]
  · exact Text.visible_cons_space (by decide) params

theorem ends_of_run_atRule {name params : String} {hasBlock : Bool} (rest : List Char)
    (pos : Text.Position) (hkind : (Kind.atRule name params hasBlock).Formed inBlock)
    (hlines : (Kind.atRule name params hasBlock).KeepsLines)
    (hx : x = if hasBlock then '{' else ';')
    (h : run ('@' :: (name.toList ++ (paramsText params.toList ++
      (if hasBlock then [' '] else []) ++ x :: rest))) pos inner blocks = .ok top)
    (hnext : Next inner blocks top (.atRule name params hasBlock)) :
    (Kind.atRule name params hasBlock).Ends := by
  obtain ⟨-, hname, -⟩ := hkind
  have hstops : isNameChar ' ' = false ∧ isNameChar '{' = false ∧ isNameChar ';' = false :=
    ⟨rfl, rfl, rfl⟩
  have hoff : Text.StartsOff isNameChar ((if hasBlock then [' '] else []) ++ x :: rest) := by
    cases hasBlock <;> simp [Text.StartsOff, hx, hstops]
  obtain ⟨htake, hdrop⟩ :=
    Text.takeWhile_append_of hname (startsOff_paramsText params.toList hoff)
  obtain ⟨text, rest', hasBlock', hread, hnext'⟩ := next_atRule h
  rw [List.append_assoc, htake] at hnext'
  rw [List.append_assoc, hdrop, ← List.append_assoc] at hread
  have htext : Text.trim text = params.toList := by
    have hk := hnext'.unique hnext
    simp only [atRule, Kind.atRule.injEq] at hk
    rw [← hk.2.1, String.toList_ofList]
  have hlen : (Text.visible text).length =
      (Text.visible (paramsText params.toList ++ if hasBlock then [' '] else [])).length := by
    have hspace : Text.visible (if hasBlock then [' '] else []) = [] := by
      cases hasBlock <;> decide
    rw [Text.visible_append, visible_paramsText, hspace, ← htext, Text.visible_trim,
      List.append_nil]
  have hx' : Text.isWhitespace x = false := by
    cases hasBlock <;> (rw [hx]; decide)
  apply Kind.ends_atRule.2
  exact stands_of_visible hread (by decide) hx' hlen (hlines _ List.mem_cons_self)

theorem ends_of_run_rule {selector : String} (hkind : (Kind.rule selector).Formed inBlock)
    (hlines : (Kind.rule selector).KeepsLines)
    (h : run (selector.toList ++ [' '] ++ '{' :: rest) pos inner blocks = .ok top)
    (hnext : Next inner blocks top (.rule selector)) : (Kind.rule selector).Ends := by
  obtain ⟨hcollapse, hother⟩ := hkind
  have hline := hlines _ List.mem_cons_self
  rw [Kind.ends_rule]
  generalize hselector : selector.toList = s at *
  cases s with
  | nil => decide +kernel
  | cons c s =>
    have hc : Starts c (s ++ ([' '] ++ '{' :: rest)) :=
      starts_of_startsOther (Text.not_isWhitespace_of_collapse_cons hcollapse) hother
        (by simp [NoStar])
    rw [List.append_assoc, List.cons_append] at h
    cases hblock : blocks.isEmpty || opensBlock 0 (c :: (s ++ ([' '] ++ '{' :: rest))) with
    | false =>
      obtain ⟨_, _, _, _, -, -, hnext'⟩ := next_declaration hc hblock h
      have hk := hnext'.unique hnext
      simp [declaration] at hk
    | true =>
      obtain ⟨text, rest', hread, hnext'⟩ := next_rule hc hblock h
      have htext : Text.collapse text = c :: s := by
        have hk := hnext'.unique hnext
        rw [← hselector]
        simp only [rule, Kind.rule.injEq] at hk
        rw [← hk, String.toList_ofList]
      have hlen : (Text.visible text).length = (Text.visible (c :: s ++ [' '])).length := by
        rw [Text.visible_append, ← htext, Text.visible_collapse,
          Text.visible_cons_space (by decide), Text.visible_nil, List.append_nil]
      rw [← List.cons_append, ← List.append_assoc] at hread
      exact stands_of_visible hread (by decide) (by decide) hlen hline

theorem toLower_of_isWhitespace (hc : Text.isWhitespace c = true) : c.toLower = c := by
  unfold Char.toLower
  split
  · rename_i hletter
    have hge : 65 ≤ c.toNat := hletter.1
    have hle : c.toNat ≤ 90 := hletter.2
    simp only [Text.isWhitespace, Bool.or_eq_true, Bool.and_eq_true, decide_eq_true_eq,
      beq_iff_eq] at hc
    omega
  · rfl

/-- Taking importance off a value takes off ten characters besides white space. -/
theorem visible_splitImportant (s : List Char) : (Text.visible s).length =
    (Text.visible (splitImportant s).1).length + if (splitImportant s).2 then 10 else 0 := by
  rcases splitImportant_cases s with hplain | ⟨front, gap, mark, hs, hgap, hmark, hbang⟩
  · rw [hplain]
    rfl
  · have hvisible : Text.visible mark = mark := by
      apply List.filter_eq_self.2
      intro c hc
      have hlower : c.toLower ∈ "important".toList := hmark ▸ List.mem_map_of_mem hc
      by_contra hspace
      have hspace : Text.isWhitespace c = true := by simpa using hspace
      rw [toLower_of_isWhitespace hspace] at hlower
      have hword : "important".toList.any Text.isWhitespace = false := by decide
      exact List.any_eq_false.1 hword c hlower hspace
    have hlen : mark.length = 9 := by
      rw [← List.length_map Char.toLower, hmark]
      rfl
    rw [hbang, hs, Text.visible_trimEnd, Text.visible_append, Text.visible_cons_of_not (by decide),
      Text.visible_append, Text.visible_eq_nil hgap, hvisible]
    simp [hlen]

theorem visible_valueText (value : List Char) (important : Bool) :
    (Text.visible (valueText value important)).length =
      (Text.visible value).length + if important then 10 else 0 := by
  have hbang : (Text.visible bang).length = 10 := by decide
  rw [valueText, Text.visible_cons_space (by decide), Text.visible_append]
  cases important <;> simp [hbang]

theorem ends_of_run_declaration {property value : String} {important : Bool} (rest : List Char)
    (pos : Text.Position) (hkind : (Kind.declaration property value important).Formed inBlock)
    (hlines : (Kind.declaration property value important).KeepsLines)
    (h : run (property.toList ++ ':' :: (valueText value.toList important ++ ';' :: rest)) pos inner
      blocks = .ok top)
    (hnext : Next inner blocks top (.declaration property value important)) :
    (Kind.declaration property value important).Ends := by
  obtain ⟨-, ⟨hne, htrim, hother⟩, -⟩ := hkind
  have hpline := hlines _ List.mem_cons_self
  have hvline := hlines _ (List.mem_cons_of_mem _ List.mem_cons_self)
  rw [Kind.ends_declaration]
  obtain ⟨c, s, hproperty⟩ := List.exists_cons_of_ne_nil hne
  dsimp only at hpline hvline
  rw [hproperty] at htrim hother hpline h ⊢
  have hc : Starts c (s ++ ':' :: (valueText value.toList important ++ ';' :: rest)) :=
    starts_of_startsOther (Text.not_isWhitespace_of_trim_cons htrim) hother (by simp [NoStar])
  cases hblock : blocks.isEmpty ||
      opensBlock 0 (c :: (s ++ ':' :: (valueText value.toList important ++ ';' :: rest))) with
  | true =>
    obtain ⟨_, _, -, hnext'⟩ := next_rule hc hblock h
    have hk := hnext'.unique hnext
    simp [rule] at hk
  | false =>
    obtain ⟨property', t, value', rest', hread, hread', hnext'⟩ := next_declaration hc hblock h
    have hk := hnext'.unique hnext
    simp only [declaration, Kind.declaration.injEq] at hk
    obtain ⟨hname, hvalue, himportant⟩ := hk
    have hplen : (Text.visible property').length = (Text.visible (c :: s)).length := by
      rw [← hproperty, ← hname, String.toList_ofList, Text.visible_trim]
    obtain ⟨rfl, ht⟩ := eq_of_visible hread (by decide) (by decide) hplen
    obtain rfl : t = valueText value.toList important ++ ';' :: rest := (List.cons.inj ht).2
    have hvlen : (Text.visible value').length =
        (Text.visible (valueText value.toList important)).length := by
      rw [visible_valueText, ← hvalue, ← himportant, String.toList_ofList,
        ← visible_splitImportant, Text.visible_trim]
    have hstands : Stands propertyStops (c :: s) := stands_of_readUntil hread hpline
    have hvstands := stands_of_visible hread' (by decide) (by decide) hvlen hvline
    refine ⟨hstands, hvstands.of_not_opensBlock (t := ';' :: rest) (by simp [NoStar]) ?_⟩
    -- Looking ahead goes over the property and the colon.
    have hcolon : Stands headStops (c :: s ++ [':']) :=
      (hstands.of_subset (by decide)).append (by decide +kernel) (by decide)
    rw [← hcolon.opensBlock_eq (by simp [NoStar, valueText])]
    rw [Bool.or_eq_false_iff] at hblock
    simpa using hblock.2

/-! ## Printed statements -/

/-- Where a run reads the kinds of these statements next from a text, all their texts end. -/
def ForcesEnds (inBlock : Bool) (s : List Char) (ss : List Statement) : Prop :=
  ∀ (rest : List Char) (pos : Text.Position) (inner : List Statement) (blocks : List OpenBlock)
    (top : List Statement), blocks.isEmpty = !inBlock → run (s ++ rest) pos inner blocks = .ok top →
      emitted inner blocks ++ allKinds ss <+: allKinds top → ∀ k ∈ allKinds ss, k.Ends

theorem forcesEnds_nil (s : List Char) : ForcesEnds inBlock s [] := by
  intro _ _ _ _ _ _ _ _ k hk
  cases hk

/-- Once the texts of the first statements end, these are read, and the run goes on behind them. -/
theorem ForcesEnds.append (hs : ForcesEnds inBlock s ss)
    (hread : (∀ k ∈ allKinds ss, k.Ends) → ReadsAs inBlock s ss) (ht : ForcesEnds inBlock t ts) :
    ForcesEnds inBlock (s ++ t) (ss ++ ts) := by
  intro rest pos inner blocks top hblocks h hprefix
  rw [List.append_assoc] at h
  rw [allKinds_append] at hprefix ⊢
  have hends := hs _ _ _ _ _ hblocks h
    ((List.prefix_append _ (allKinds ts)).trans (by rwa [List.append_assoc]))
  obtain ⟨pos', ss', hshapes, hrun⟩ := hread hends (t ++ rest) pos inner blocks hblocks
  have hkinds : allKinds ss' = allKinds ss := by
    rw [← allKinds_shapes ss', hshapes, allKinds_shapes]
  rw [hrun] at h
  refine List.forall_mem_append.2 ⟨hends, ht _ _ _ _ _ hblocks h ?_⟩
  rwa [emitted_append, hkinds, List.append_assoc]

theorem ForcesEnds.append_right (hs : ForcesEnds inBlock s ss) (t : List Char) :
    ForcesEnds inBlock (s ++ t) ss := by
  intro rest pos inner blocks top hblocks h hprefix
  rw [List.append_assoc] at h
  exact hs _ _ _ _ _ hblocks h hprefix

theorem ForcesEnds.space (hs : ForcesEnds inBlock s ss)
    (ht : ReadsAs inBlock t []) : ForcesEnds inBlock (t ++ s) ss :=
  (forcesEnds_nil t).append (fun _ => ht) hs

theorem ForcesEnds.line (depth : Nat) (hs : ForcesEnds inBlock s ss) :
    ForcesEnds inBlock ((indent depth).toList ++ (s ++ ['\n'])) ss :=
  (hs.append_right ['\n']).space (readsAs_indent depth)

theorem ends_of_run_headText (hshows : kind.showsBody = true) (hkind : kind.Formed inBlock)
    (hlines : kind.KeepsLines)
    (h : run ((headText kind).toList ++ [' '] ++ '{' :: rest) pos inner blocks = .ok top)
    (hnext : Next inner blocks top kind) : kind.Ends := by
  cases kind with
  | root => exact absurd hkind id
  | rule selector => exact ends_of_run_rule hkind hlines h hnext
  | atRule name params hasBlock =>
    obtain rfl : hasBlock = true := by cases hasBlock <;> simp_all [Kind.showsBody]
    refine ends_of_run_atRule rest pos hkind hlines rfl ?_ hnext
    rw [headText_atRule] at h
    simpa using h
  | declaration property value important => simp [Kind.showsBody] at hshows
  | comment text => simp [Kind.showsBody] at hshows

/-- A head that is read as it is opens its block, and what is read next stands in it. -/
theorem ForcesEnds.block (hshows : kind.showsBody = true) (hkind : kind.Formed inBlock)
    (hlines : kind.KeepsLines) (hbody : ForcesEnds true t ss) (pos : Text.Position) :
    ForcesEnds inBlock ((headText kind).toList ++ [' '] ++ '{' :: (t ++ ['}']))
      [.mk kind pos ss] := by
  intro rest pos₀ inner blocks top hblocks h hprefix
  have hkinds : allKinds [.mk kind pos ss] = kind :: allKinds ss := by simp [allKinds, kinds]
  rw [hkinds] at hprefix ⊢
  have htext : ((headText kind).toList ++ [' '] ++ '{' :: (t ++ ['}'])) ++ rest =
      (headText kind).toList ++ [' '] ++ '{' :: (t ++ (['}'] ++ rest)) := by simp
  rw [htext] at h
  have hends : kind.Ends := by
    refine ends_of_run_headText hshows hkind hlines h ?_
    exact (List.prefix_append _ (allKinds ss)).trans (by simpa using hprefix)
  obtain ⟨pos₁, pos₂, hrun⟩ := opensAs_headText hshows hkind hends (t ++ (['}'] ++ rest)) pos₀ inner
    blocks hblocks
  rw [hrun] at h
  refine List.forall_mem_cons.2 ⟨hends, hbody _ _ _ _ _ rfl h ?_⟩
  rwa [emitted_opened, List.append_assoc]

theorem forcesEnds_leaf (hshows : kind.showsBody = false) (hkind : kind.Formed inBlock)
    (hlines : kind.KeepsLines) (depth : Nat) (pos : Text.Position) :
    ForcesEnds inBlock ((Statement.mk kind pos []).text depth).toList [.mk kind pos []] := by
  have hkinds : allKinds [.mk kind pos []] = [kind] := rfl
  cases kind with
  | root => exact absurd hkind id
  | rule selector => simp [Kind.showsBody] at hshows
  | atRule name params hasBlock =>
    obtain rfl : hasBlock = false := by cases hasBlock <;> simp_all [Kind.showsBody]
    have hhead : ForcesEnds inBlock ('@' :: (name.toList ++ (paramsText params.toList ++ [';'])))
        [.mk (.atRule name params false) pos []] := by
      intro rest pos₀ inner blocks top _ h hprefix
      rw [hkinds] at hprefix ⊢
      refine List.forall_mem_singleton.2 (ends_of_run_atRule rest pos₀ hkind hlines rfl ?_ hprefix)
      simpa using h
    rw [Statement.text, String.toList_append, String.toList_append, headText_atRule]
    simpa using hhead.line depth
  | declaration property value important =>
    have hhead : ForcesEnds inBlock
        (property.toList ++ (':' :: (valueText value.toList important ++ [';'])))
        [.mk (.declaration property value important) pos []] := by
      intro rest pos₀ inner blocks top _ h hprefix
      rw [hkinds] at hprefix ⊢
      refine List.forall_mem_singleton.2 (ends_of_run_declaration rest pos₀ hkind hlines ?_ hprefix)
      simpa using h
    rw [Statement.text, String.toList_append, String.toList_append, headText_declaration]
    simpa using hhead.line depth
  | comment text =>
    intro _ _ _ _ _ _ _ _ k hk
    rw [hkinds] at hk
    obtain rfl := List.mem_singleton.1 hk
    simp [Kind.Ends, Kind.pieces]

mutual
theorem Statement.Formed.forcesEnds (depth : Nat) : ∀ {st : Statement} {inBlock : Bool},
    st.Formed inBlock → (∀ k ∈ st.kinds, k.KeepsLines) →
      ForcesEnds inBlock (st.text depth).toList [st]
  | .mk kind pos body, inBlock, ⟨hkind, hbody, hall⟩, hlines => by
    obtain ⟨hhead, hinner⟩ := List.forall_mem_cons.1 hlines
    by_cases hshows : kind.showsBody = true
    · have hbody := (Statement.AllFormed.forcesEnds (depth + 1) hall hinner).append_right
        (indent depth).toList
      have hnewline : ReadsAs true ['\n'] [] := readsAs_space (by decide)
      rw [text_of_showsBody (by rintro rfl; exact hkind) hshows]
      exact ((hbody.space hnewline).block hshows hkind hhead pos).line depth
    · obtain rfl : body = [] := hbody.resolve_left hshows
      exact forcesEnds_leaf (by simpa using hshows) hkind hhead depth pos

theorem Statement.AllFormed.forcesEnds (depth : Nat) : ∀ {ss : List Statement},
    Statement.AllFormed true ss → (∀ k ∈ allKinds ss, k.KeepsLines) →
      ForcesEnds true (bodyText depth ss).toList ss
  | [], _, _ => forcesEnds_nil _
  | st :: ss, ⟨hst, hss⟩, hlines => by
    obtain ⟨hfirst, hrest⟩ := List.forall_mem_append.1 hlines
    rw [bodyText, String.toList_append]
    refine (hst.forcesEnds depth hfirst).append (fun hends => hst.readsAs depth ?_)
      (Statement.AllFormed.forcesEnds depth hss hrest)
    simpa [allKinds] using hends
end

/-! ## Whole stylesheets -/

mutual
/-- Positions are not printed. -/
theorem text_shape (depth : Nat) : ∀ st : Statement, st.shape.text depth = st.text depth
  | .mk kind _ body => by
    cases kind with
    | root => exact bodyText_shapes depth body
    | rule selector => simp only [shape, Statement.text, bodyText_shapes (depth + 1) body]
    | atRule name params hasBlock =>
      cases hasBlock with
      | true => simp only [shape, Statement.text, bodyText_shapes (depth + 1) body]
      | false => rfl
    | declaration property value important => rfl
    | comment text => rfl

theorem bodyText_shapes (depth : Nat) : ∀ ss : List Statement,
    bodyText depth (shapes ss) = bodyText depth ss
  | [] => rfl
  | st :: ss => by rw [shapes, bodyText, text_shape depth st, bodyText_shapes depth ss, bodyText]
end

theorem sheetText_shapes (ss : List Statement) : sheetText (shapes ss) = sheetText ss := by
  have hmap : (shapes ss).map (Statement.text 0) = ss.map (Statement.text 0) := by
    induction ss with
    | nil => rfl
    | cons st ss ih => rw [shapes, List.map_cons, ih, text_shape, List.map_cons]
  rw [sheetText, hmap, sheetText]

/-- What holds of each statement holds of a whole stylesheet with its blank lines. -/
theorem Statement.AllFormed.forcesEnds_sheetText : ∀ {top : List Statement},
    Statement.AllFormed false top → (∀ k ∈ allKinds top, k.KeepsLines) →
      ForcesEnds false (sheetText top).toList top
  | [], _, _ => forcesEnds_nil _
  | [st], ⟨hst, _⟩, hlines => by
    have hst := hst.forcesEnds 0 (by simpa [allKinds] using hlines)
    simpa [sheetText, String.toList_intercalate] using hst
  | st :: st' :: top, ⟨hst, htop⟩, hlines => by
    obtain ⟨hfirst, hrest⟩ := List.forall_mem_append.1 hlines
    have hnewline : ReadsAs false ['\n'] [] := readsAs_space (by decide)
    have hall := (hst.forcesEnds 0 hfirst).append
      (fun hends => hst.readsAs 0 (by simpa [allKinds] using hends))
      ((htop.forcesEnds_sheetText hrest).space hnewline)
    simpa [sheetText, String.toList_intercalate, List.intercalate_cons_cons] using hall

/-- Stylesheets are read again from their own texts, positions aside, if the reader finds the end of
every text that is printed, and if no string is ended by a newline, only then. -/
theorem parse_css_of_parse {source path : String} {s : Sheet} (h : parse source path = .ok s)
    (path' : String) :
    ((∀ k ∈ allKinds (s.body root), k.Ends) → ∃ s', parse s.css path' = .ok s' ∧
      shapes (s'.body root) = shapes (s.body root) ∧ s'.css = s.css) ∧
    ((∀ k ∈ allKinds (s.body root), k.KeepsLines) → (∃ s', parse s.css path' = .ok s' ∧
      shapes (s'.body root) = shapes (s.body root)) → ∀ k ∈ allKinds (s.body root), k.Ends) := by
  have hformed := allFormed_of_parse h
  constructor
  · intro hends
    obtain ⟨top, hparse, hshapes⟩ := (hformed.eachReadsAs 0 hends).sheetText.parse path'
    refine ⟨.ofStatements path' top, hparse, by rw [body_ofStatements, hshapes], ?_⟩
    rw [css, body_ofStatements, ← sheetText_shapes, hshapes, sheetText_shapes, css]
  · rintro hlines ⟨s', hparse, hshapes⟩
    obtain ⟨top, hrun, rfl⟩ := exists_of_parse hparse
    rw [body_ofStatements] at hshapes
    rw [css, ← List.append_nil (sheetText _).toList] at hrun
    refine hformed.forcesEnds_sheetText hlines _ _ _ _ _ rfl hrun ?_
    rw [← allKinds_shapes top, hshapes, allKinds_shapes]
    exact List.prefix_refl _

/-- A selector and a value that end in escapes, with more behind them. -/
def escapedSelector : String :=
  "@media print \x7b.a\\ \x7bcolor: '\x7d\\'' red\\ !IMPORTANT\x7d\x7d @import 'b'"

/-- A string that only the end of its line ends. -/
def unclosedString : String := ".a \x7b content: \"x\n\x7d"

theorem parse_css_of_parse_escapedSelector :
    let s := (parse escapedSelector "a.css").toOption.getD default
    let t := (parse unclosedString "a.css").toOption.getD default
    parse escapedSelector "a.css" = .ok s ∧ parse unclosedString "a.css" = .ok t ∧
      (∃ s', parse s.css "b.css" = .ok s' ∧ s'.css = s.css) ∧
      ¬∃ t', parse t.css "b.css" = .ok t' ∧ shapes (t'.body root) = shapes (t.body root) := by
  intro s t
  have hs : parse escapedSelector "a.css" = .ok s := by decide +kernel
  have ht : parse unclosedString "a.css" = .ok t := by decide +kernel
  obtain ⟨hends, hlines, hopen⟩ : (∀ k ∈ allKinds (s.body root), k.Ends) ∧
      (∀ k ∈ allKinds (t.body root), k.KeepsLines) ∧ ¬∀ k ∈ allKinds (t.body root), k.Ends := by
    decide +kernel
  obtain ⟨s', hparse, -, hcss⟩ := (parse_css_of_parse hs "b.css").1 hends
  refine ⟨hs, ht, ⟨s', hparse, hcss⟩, fun hstable => hopen ?_⟩
  exact (parse_css_of_parse ht "b.css").2 hlines hstable

/-- A value that ends in escaped white space loses the white space, and the escape takes in the
semicolon that is printed behind it. -/
theorem parse_css_escape :
    let s := (parse ".a \x7b color: red\\ \x7d" "a.css").toOption.getD default
    let s' := (parse s.css "a.css").toOption.getD default
    parse ".a \x7b color: red\\ \x7d" "a.css" = .ok s ∧ parse s.css "a.css" = .ok s' ∧
      s.css = ".a \x7b\n  color: red\\;\n\x7d\n" ∧ s'.css = ".a \x7b\n  color: red\\;;\n\x7d\n" ∧
      shapes (s'.body root) ≠ shapes (s.body root) := by
  intro s s'
  have hkinds : allKinds (s'.body root) ≠ allKinds (s.body root) := by decide +kernel
  refine ⟨by decide +kernel, by decide +kernel, by decide +kernel, by decide +kernel, ?_⟩
  intro hshapes
  rw [← allKinds_shapes, hshapes, allKinds_shapes] at hkinds
  exact hkinds rfl

end CssTheming.Sheet
