import CssTheming.Proofs.Sheet.Reading
import CssTheming.Proofs.Sheet.Tree

/-!
# Printed stylesheets read back

A tree of statements is printable if its texts stand for themselves wherever they are put: closed,
trimmed as the reader trims them, free of the characters that end them and not mistaken for the
start of something else. The text of a printable tree is read as that tree, positions aside.
-/

namespace CssTheming.Sheet

namespace Kind

def Printable (inBlock : Bool) : Kind → Prop
  | .root => False
  | .rule selector =>
    Stands headStops selector.toList ∧ Text.collapse selector.toList = selector.toList ∧
      startsOther selector.toList = false
  | .atRule name params _ =>
    name.toList ≠ [] ∧ (∀ c ∈ name.toList, isNameChar c) ∧
      Stands headStops params.toList ∧ Text.trim params.toList = params.toList
  | .declaration property value important =>
    inBlock ∧
      (property.toList ≠ [] ∧ Stands propertyStops property.toList ∧
        Text.trim property.toList = property.toList ∧
        startsOther property.toList = false) ∧
      Stands headStops value.toList ∧ Text.trim value.toList = value.toList ∧
      (important = false → splitImportant value.toList = (value.toList, false))
  | .comment text => Text.contains text "*/" = false

instance (inBlock : Bool) : (kind : Kind) → Decidable (kind.Printable inBlock)
  | .root => .isFalse id
  | .rule _ => inferInstanceAs (Decidable (_ ∧ _ ∧ _))
  | .atRule name _ _ =>
    have : Decidable (∀ c ∈ name.toList, isNameChar c) := List.decidableBAll _ name.toList
    inferInstanceAs (Decidable (_ ∧ _ ∧ _ ∧ _))
  | .declaration .. => inferInstanceAs (Decidable (_ ∧ (_ ∧ _ ∧ _ ∧ _) ∧ _ ∧ _ ∧ (_ → _)))
  | .comment _ => inferInstanceAs (Decidable (_ = _))

end Kind

namespace Statement

mutual
/-- Whether a statement at the top or in a block is printable, and all that is inside it. -/
def Printable (inBlock : Bool) : Statement → Prop
  | .mk kind _ body => kind.Printable inBlock ∧ (kind.showsBody ∨ body.isEmpty) ∧
    AllPrintable true body

def AllPrintable (inBlock : Bool) : List Statement → Prop
  | [] => True
  | s :: ss => s.Printable inBlock ∧ AllPrintable inBlock ss
end

mutual
def decPrintable (inBlock : Bool) : (s : Statement) → Decidable (s.Printable inBlock)
  | .mk kind _ body =>
    have := decAllPrintable true body
    inferInstanceAs (Decidable (kind.Printable inBlock ∧ (kind.showsBody ∨ body.isEmpty) ∧
      AllPrintable true body))

def decAllPrintable (inBlock : Bool) : (ss : List Statement) → Decidable (AllPrintable inBlock ss)
  | [] => .isTrue trivial
  | s :: ss =>
    have := decPrintable inBlock s
    have := decAllPrintable inBlock ss
    inferInstanceAs (Decidable (s.Printable inBlock ∧ AllPrintable inBlock ss))
end

instance (inBlock : Bool) (ss : List Statement) : Decidable (AllPrintable inBlock ss) :=
  decAllPrintable inBlock ss

end Statement

/-! ## Texts that stand for themselves -/

theorem stands_paramsText {params : List Char} (h : Stands headStops params) :
    Stands headStops (paramsText params) := by
  rw [paramsText]
  split
  · decide +kernel
  · exact stands_cons (by decide) (by decide) (by decide) (by decide) (by decide) h

theorem stands_valueText {value : List Char} (h : Stands headStops value) (important : Bool) :
    Stands headStops (valueText value important) := by
  apply stands_cons (by decide) (by decide) (by decide) (by decide) (by decide)
  cases important with
  | false => rwa [if_neg (by decide), List.append_nil]
  | true => exact h.append (by decide +kernel) (by decide)

theorem Kind.Printable.formed {kind : Kind} {inBlock : Bool} (h : kind.Printable inBlock) :
    kind.Formed inBlock := by
  cases kind with
  | root => exact h
  | rule selector => exact h.2
  | atRule name params hasBlock =>
    obtain ⟨hne, hname, -, htrim⟩ := h
    exact ⟨hne, hname, htrim⟩
  | declaration property value important =>
    obtain ⟨hin, ⟨hne, -, hproperty⟩, -, hvalue⟩ := h
    exact ⟨hin, ⟨hne, hproperty⟩, hvalue⟩
  | comment text => exact h

/-- A text that stands for itself ends wherever it is printed. -/
theorem Kind.Printable.ends {kind : Kind} {inBlock : Bool} (h : kind.Printable inBlock) :
    kind.Ends := by
  have hspace {s : List Char} (hs : Stands headStops s) : Stands headStops (s ++ [' ']) :=
    hs.append (by decide +kernel) (by decide)
  cases kind with
  | root => exact absurd h id
  | rule selector => exact ends_rule.2 (hspace h.1)
  | atRule name params hasBlock =>
    obtain ⟨-, -, hstands, -⟩ := h
    apply ends_atRule.2
    cases hasBlock with
    | true => exact hspace (stands_paramsText hstands)
    | false => simpa using stands_paramsText hstands
  | declaration property value important =>
    obtain ⟨-, ⟨-, hprop, -⟩, hvalue, -⟩ := h
    exact ends_declaration.2 ⟨hprop, stands_valueText hvalue important⟩
  | comment text => simp [Ends, pieces]

namespace Statement

mutual
/-- A statement that the reader could have made, at the top or in a block. -/
def Formed (inBlock : Bool) : Statement → Prop
  | .mk kind _ body => kind.Formed inBlock ∧ (kind.showsBody = true ∨ body = []) ∧
    AllFormed true body

def AllFormed (inBlock : Bool) : List Statement → Prop
  | [] => True
  | s :: ss => s.Formed inBlock ∧ AllFormed inBlock ss
end

mutual
/-- The kinds of a statement and of all that is inside it, in order. -/
def kinds : Statement → List Kind
  | .mk kind _ body => kind :: allKinds body

def allKinds : List Statement → List Kind
  | [] => []
  | s :: ss => s.kinds ++ allKinds ss
end

mutual
theorem Printable.formed : ∀ {s : Statement} {inBlock : Bool}, s.Printable inBlock →
    s.Formed inBlock
  | .mk _ _ _, _, ⟨hkind, hbody, hall⟩ =>
    ⟨hkind.formed, hbody.imp_right List.isEmpty_iff.1, AllPrintable.allFormed hall⟩

theorem AllPrintable.allFormed : ∀ {ss : List Statement} {inBlock : Bool},
    AllPrintable inBlock ss → AllFormed inBlock ss
  | [], _, _ => trivial
  | _ :: _, _, ⟨hs, hss⟩ => ⟨Printable.formed hs, AllPrintable.allFormed hss⟩
end

mutual
theorem Printable.ends : ∀ {s : Statement} {inBlock : Bool}, s.Printable inBlock →
    ∀ k ∈ s.kinds, k.Ends
  | .mk _ _ _, _, ⟨hkind, _, hall⟩ => List.forall_mem_cons.2 ⟨hkind.ends, AllPrintable.ends hall⟩

theorem AllPrintable.ends : ∀ {ss : List Statement} {inBlock : Bool}, AllPrintable inBlock ss →
    ∀ k ∈ allKinds ss, k.Ends
  | [], _, _ => by simp [allKinds]
  | _ :: _, _, ⟨hs, hss⟩ =>
    List.forall_mem_append.2 ⟨Printable.ends hs, AllPrintable.ends hss⟩
end

end Statement

/-! ## Whole texts -/

variable {inBlock : Bool} {s : List Char} {ss ts : List Statement}

theorem ReadsAs.line (depth : Nat) (h : ReadsAs inBlock s ss) :
    ReadsAs inBlock ((Statement.indent depth).toList ++ (s ++ ['\n'])) ss := by
  have := (readsAs_indent depth).append (h.append (readsAs_space (c := '\n') (by decide)))
  rwa [List.nil_append, List.append_nil] at this

theorem paramsText_toList (params : String) :
    (if params = "" then "" else " " ++ params : String).toList = paramsText params.toList := by
  rw [paramsText]
  split
  · rename_i h
    rw [h]
    rfl
  · rename_i h
    rw [if_neg (by simpa using h), String.toList_append]
    rfl

theorem headText_atRule (name params : String) (hasBlock : Bool) :
    (Statement.headText (.atRule name params hasBlock)).toList =
      '@' :: (name.toList ++ paramsText params.toList) := by
  simp [Statement.headText, paramsText_toList]

theorem headText_declaration (property value : String) (important : Bool) :
    (Statement.headText (.declaration property value important)).toList =
      property.toList ++ (':' :: valueText value.toList important) := by
  have hsep : ": ".toList = [':', ' '] := rfl
  have hbang : (if important then " !important" else "" : String).toList = if important then bang
      else [] := by
    cases important <;> rfl
  rw [Statement.headText, String.toList_append, String.toList_append, String.toList_append, hsep,
    hbang, valueText]
  simp

theorem headText_comment (text : String) :
    (Statement.headText (.comment text)).toList = '/' :: '*' :: (text.toList ++ ['*', '/']) := by
  simp [Statement.headText]

/-- A statement whose body is shown is its head and, in braces, its body. -/
theorem text_of_showsBody {kind : Kind} (hroot : kind ≠ .root)
    (hkind : kind.showsBody = true) (depth : Nat)
    (pos : Text.Position) (body : List Statement) :
    ((Statement.mk kind pos body).text depth).toList = (Statement.indent depth).toList ++
      ((Statement.headText kind).toList ++
      [' '] ++ '{' :: ('\n' ::
          ((Statement.bodyText (depth + 1) body).toList ++ (Statement.indent depth).toList) ++
        ['}']) ++ ['\n']) := by
  cases kind with
  | root => exact absurd rfl hroot
  | rule selector => simp [Statement.text]
  | atRule name params hasBlock =>
    cases hasBlock with
    | true => simp [Statement.text]
    | false => simp [Kind.showsBody] at hkind
  | declaration property value important => simp [Kind.showsBody] at hkind
  | comment text => simp [Kind.showsBody] at hkind

theorem opensAs_headText {kind : Kind} (hkind : kind.showsBody = true)
    (h : kind.Formed inBlock) (hends : kind.Ends) :
    OpensAs inBlock ((Statement.headText kind).toList ++ [' ']) kind := by
  cases kind with
  | root => exact absurd h id
  | rule selector => exact opensAs_rule h hends
  | atRule name params hasBlock =>
    obtain rfl : hasBlock = true := by cases hasBlock <;> simp_all [Kind.showsBody]
    have := opensAs_atRule h hends
    rwa [headText_atRule, List.cons_append, List.append_assoc]
  | declaration property value important => simp [Kind.showsBody] at hkind
  | comment text => simp [Kind.showsBody] at hkind

theorem readsAs_leaf {kind : Kind} (hkind : kind.showsBody = false)
    (h : kind.Formed inBlock) (hends : kind.Ends) (depth : Nat)
    (pos : Text.Position) (body : List Statement) :
    ReadsAs inBlock ((Statement.mk kind pos body).text depth).toList [.mk kind pos []] := by
  cases kind with
  | root => exact absurd h id
  | rule selector => simp [Kind.showsBody] at hkind
  | atRule name params hasBlock =>
    obtain rfl : hasBlock = false := by cases hasBlock <;> simp_all [Kind.showsBody]
    have := (readsAs_atRule h hends pos).line depth
    rw [Statement.text, String.toList_append, String.toList_append, headText_atRule]
    simpa using this
  | declaration property value important =>
    have := (readsAs_declaration h hends pos).line depth
    rw [Statement.text, String.toList_append, String.toList_append, headText_declaration]
    simpa using this
  | comment text =>
    have := (readsAs_comment h pos).line depth
    rw [Statement.text, String.toList_append, String.toList_append, headText_comment]
    simpa using this

/-- A statement with a body is read as what its head opens and what its body is read as. -/
theorem OpensAs.text {kind kind' : Kind} {body : List Statement} {depth : Nat}
    (hroot : kind ≠ .root) (hshows : kind.showsBody = true)
    (hopens : OpensAs inBlock ((Statement.headText kind).toList ++ [' ']) kind')
    (hbody : ReadsAs true (Statement.bodyText (depth + 1) body).toList ss) (pos : Text.Position) :
    ReadsAs inBlock ((Statement.mk kind pos body).text depth).toList [.mk kind' pos ss] := by
  have hinner := (readsAs_space (c := '\n') (by decide)).append (hbody.append (readsAs_indent depth))
  rw [List.nil_append, List.append_nil] at hinner
  rw [text_of_showsBody hroot hshows]
  exact (hopens.block hinner pos).line depth

mutual
/-- What is printed at any depth is read back where every text ends. -/
theorem Statement.Formed.readsAs (depth : Nat) : ∀ {st : Statement} {inBlock : Bool},
    st.Formed inBlock → (∀ k ∈ st.kinds, k.Ends) → ReadsAs inBlock (st.text depth).toList [st]
  | .mk kind pos body, inBlock, ⟨hkind, hbody, hall⟩, hends => by
    obtain ⟨hhead, hinner⟩ := List.forall_mem_cons.1 hends
    by_cases hshows : kind.showsBody = true
    · exact (opensAs_headText hshows hkind hhead).text (by rintro rfl; exact hkind) hshows
        (Statement.AllFormed.readsAs (depth + 1) hall hinner) pos
    · obtain rfl : body = [] := hbody.resolve_left hshows
      exact readsAs_leaf (by simpa using hshows) hkind hhead depth pos []

theorem Statement.AllFormed.readsAs (depth : Nat) : ∀ {ss : List Statement},
    Statement.AllFormed true ss → (∀ k ∈ Statement.allKinds ss, k.Ends) →
      ReadsAs true (Statement.bodyText depth ss).toList ss
  | [], _, _ => readsAs_nil
  | st :: ss, ⟨hst, hss⟩, hends => by
    obtain ⟨hfirst, hrest⟩ := List.forall_mem_append.1 hends
    rw [Statement.bodyText, String.toList_append]
    exact (hst.readsAs depth hfirst).append (Statement.AllFormed.readsAs depth hss hrest)
end

theorem readsAs_text (depth : Nat) {st : Statement} (h : st.Printable inBlock) :
    ReadsAs inBlock (st.text depth).toList [st] :=
  h.formed.readsAs depth h.ends

/-- Each of these statements is read as the one of those. -/
def EachReadsAs (inBlock : Bool) (depth : Nat) : List Statement → List Statement → Prop :=
  List.Forall₂ fun st st' => ReadsAs inBlock (st.text depth).toList [st']

theorem EachReadsAs.bodyText {depth : Nat} (h : EachReadsAs true depth ss ts) :
    ReadsAs true (Statement.bodyText depth ss).toList ts := by
  induction h with
  | nil => exact readsAs_nil
  | cons hst _ ih =>
    rw [Statement.bodyText, String.toList_append]
    exact hst.append ih

theorem EachReadsAs.sheetText (h : EachReadsAs false 0 ss ts) :
    ReadsAs false (Statement.sheetText ss).toList ts := by
  induction h with
  | nil => exact readsAs_nil
  | @cons st st' ss ts hst hrest ih =>
    cases hrest with
    | nil => simpa [Statement.sheetText, String.toList_intercalate] using hst
    | cons _ _ =>
      have hread := (hst.append (readsAs_space (c := '\n') (by decide))).append ih
      rw [List.append_nil, List.singleton_append] at hread
      simpa [Statement.sheetText, String.toList_intercalate, List.intercalate_cons_cons] using hread

theorem Statement.AllFormed.eachReadsAs (depth : Nat) : ∀ {ss : List Statement},
    Statement.AllFormed inBlock ss → (∀ k ∈ Statement.allKinds ss, k.Ends) →
      EachReadsAs inBlock depth ss ss
  | [], _, _ => .nil
  | _ :: _, ⟨hst, hss⟩, hends => by
    obtain ⟨hfirst, hrest⟩ := List.forall_mem_append.1 hends
    exact .cons (hst.readsAs depth hfirst) (hss.eachReadsAs depth hrest)

theorem readsAs_sheetText (top : List Statement) (h : Statement.AllPrintable false top) :
    ReadsAs false (Statement.sheetText top).toList top :=
  (h.allFormed.eachReadsAs 0 h.ends).sheetText

/-- A whole text that is read as some statements is a stylesheet of them. -/
theorem ReadsAs.parse {source : String} {top : List Statement}
    (h : ReadsAs false source.toList top) (path : String) :
    ∃ top', Sheet.parse source path = .ok (ofStatements path top') ∧
      Statement.shapes top' = Statement.shapes top := by
  obtain ⟨pos, top', hshapes, hrun⟩ := h [] .start [] [] rfl
  have hstatements : statements source = .ok top' := by
    rw [List.append_nil, List.append_nil] at hrun
    rw [statements, hrun, run.eq_def]
    simp
  exact ⟨top', by rw [Sheet.parse, hstatements], hshapes⟩

/-- The text of a stylesheet whose statements are printable is read as these statements. -/
theorem parse_css (s : Sheet) (path : String) (h : Statement.AllPrintable false (s.body root)) :
    ∃ s', parse s.css path = .ok s' ∧
      Statement.shapes (s'.body root) = Statement.shapes (s.body root) := by
  obtain ⟨top, hparse, hshapes⟩ := (readsAs_sheetText _ h).parse path
  exact ⟨.ofStatements path top, hparse, by rw [body_ofStatements, hshapes]⟩

/-- Statements of every kind, with stop characters in strings, comments, escapes and brackets. -/
def mixed : List Statement :=
  [.mk (.comment " \x7b not a block; \x7d") nowhere [],
    .mk (.atRule "import" "url(a;b.css)" false) nowhere [],
    .mk (.atRule "media" "" true) nowhere
      [.mk (.rule "a[b=\"\x7d\"] > \\\x7b :is(c, d) /*;*/") nowhere
        [.mk (.declaration "--a\\:b" "[\x7bx: y\x7d]" false) nowhere [],
          .mk (.declaration "color" "*/ 'it\\'s ;'" true) nowhere [],
          .mk (.declaration "margin" "" true) nowhere [],
          .mk (.rule "") nowhere [.mk (.atRule "component" "" false) nowhere []]]]]

theorem parse_css_mixed :
    Statement.AllPrintable false ((ofStatements "a.css" mixed).body root) ∧
      ∃ s', parse (ofStatements "a.css" mixed).css "a.css" = .ok s' ∧
        Statement.shapes (s'.body root) =
          Statement.shapes ((ofStatements "a.css" mixed).body root) := by
  have h : Statement.AllPrintable false ((ofStatements "a.css" mixed).body root) := by
    rw [body_ofStatements]
    decide +kernel
  exact ⟨h, parse_css _ "a.css" h⟩

end CssTheming.Sheet
