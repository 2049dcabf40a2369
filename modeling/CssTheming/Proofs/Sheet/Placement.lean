import CssTheming.Proofs.Sheet.Parsed

/-!
# Where declarations may stand

A stylesheet whose texts stand for themselves is read again from its own text unless a declaration
stands at the top of it: outside of all blocks the reader takes for a selector whatever starts like
one.
-/

namespace CssTheming.Sheet

theorem Kind.printable_top_iff {kind : Kind} :
    kind.Printable false ↔ kind.Printable true ∧ kind.isDeclaration = false := by
  cases kind <;> simp [Kind.Printable, Kind.isDeclaration]

namespace Statement

variable {inBlock : Bool} {ss : List Statement}

theorem allPrintable_iff : AllPrintable inBlock ss ↔ ∀ s ∈ ss, s.Printable inBlock := by
  induction ss with
  | nil => simp [AllPrintable]
  | cons s ss ih => simp [AllPrintable, ih]

theorem printable_top_iff {s : Statement} :
    s.Printable false ↔ s.Printable true ∧ s.kind.isDeclaration = false := by
  cases s
  rw [Printable, Printable, Kind.printable_top_iff, and_right_comm]
  rfl

theorem allPrintable_top_iff :
    AllPrintable false ss ↔ AllPrintable true ss ∧ ∀ s ∈ ss, s.kind.isDeclaration = false := by
  simp only [allPrintable_iff, printable_top_iff, imp_and, forall_and]

end Statement

/-! ## Declarations at the top -/

theorem run_selector_error {c : Char} {r text rest : List Char} (hc : Starts c r)
    (h : readUntil headStops 0 (c :: r) = (text, ';' :: rest)) (pos : Text.Position)
    (inner : List Statement) :
    run (c :: r) pos inner [] = .error (pos.line, .selectorWithoutBlock (shown text)) := by
  rw [run_rule_eq pos inner [] hc rfl, h]
  rfl

/-- Up to its semicolon a declaration is read for a selector. -/
theorem run_declaration_error {property value : String} {important : Bool}
    (h : (Kind.declaration property value important).Printable true) (rest : List Char)
    (pos : Text.Position) (inner : List Statement) :
    run ((Statement.headText (.declaration property value important)).toList ++ ';' :: rest)
        pos inner [] =
      .error (pos.line, .selectorWithoutBlock
        (shown (Statement.headText (.declaration property value important)).toList)) := by
  obtain ⟨-, ⟨hne, hprop, htrim, hother⟩, hvalue, -, -⟩ := h
  have hstands := stands_declarationText hprop (stands_valueText hvalue important)
  rw [headText_declaration]
  obtain ⟨c, r, hcr⟩ := List.exists_cons_of_ne_nil hne
  rw [hcr] at htrim hother hstands ⊢
  have hread := hstands.readUntil_eq (by decide : ';' ∈ headStops) (by decide) rest
  have hstarts := starts_of_startsOther (Text.not_isWhitespace_of_trim_cons htrim) hother
    (t := ':' :: valueText value.toList important ++ ';' :: rest) (by simp [NoStar])
  simp only [List.cons_append, List.append_assoc] at hread hstarts ⊢
  exact run_selector_error hstarts hread pos inner

/-- The text of statements of which one is a declaration is not read to its end. -/
theorem exists_run_error : ∀ {top : List Statement}, Statement.AllPrintable true top →
    (∃ t ∈ top, t.kind.isDeclaration = true) → ∀ (pos : Text.Position) (inner : List Statement),
      ∃ e, run (Statement.sheetText top).toList pos inner [] = .error e
  | [], _, hdeclaration, _, _ => by simp at hdeclaration
  | t :: ts, ⟨ht, hts⟩, hdeclaration, pos, inner => by
    obtain ⟨rest, htext, hrest⟩ : ∃ rest,
        (Statement.sheetText (t :: ts)).toList = (t.text 0).toList ++ rest ∧
          (ts = [] ∨ rest = '\n' :: (Statement.sheetText ts).toList) := by
      cases ts with
      | nil => exact ⟨[], by simp [Statement.sheetText], .inl rfl⟩
      | cons t' ts =>
        refine ⟨_, ?_, .inr rfl⟩
        simp [Statement.sheetText, String.toList_intercalate]
    rw [htext]
    by_cases hfirst : t.kind.isDeclaration = true
    · obtain ⟨kind, position, body⟩ := t
      cases kind with
      | declaration property value important =>
        have hindent : (Statement.indent 0).toList = [] := rfl
        refine ⟨_, Eq.trans ?_ (run_declaration_error ht.1 ('\n' :: rest) pos inner)⟩
        rw [Statement.text, String.toList_append, String.toList_append, hindent]
        simp
      | _ => cases hfirst
    · -- The first statement is read, and so the fault is behind it.
      obtain ⟨t', hmem, ht'⟩ := hdeclaration
      have hmem : t' ∈ ts := (List.mem_cons.1 hmem).resolve_left (by rintro rfl; exact hfirst ht')
      obtain rfl := hrest.resolve_left (List.ne_nil_of_mem hmem)
      have htop : t.Printable false :=
        Statement.printable_top_iff.2 ⟨ht, Bool.eq_false_iff.2 hfirst⟩
      obtain ⟨pos', ss, -, hrun⟩ := readsAs_text 0 htop _ pos inner [] rfl
      rw [hrun, run_cons_space (by decide)]
      exact exists_run_error hts ⟨t', hmem, ht'⟩ _ _

/-- Statements whose texts stand are read again if and only if no declaration is among them. -/
theorem exists_parse_css_iff {s : Sheet} (h : Statement.AllPrintable true (s.body root))
    (path : String) :
    (∃ s', parse s.css path = .ok s') ↔ ∀ t ∈ s.body root, t.kind.isDeclaration = false := by
  constructor
  · rintro ⟨s', hparse⟩ t ht
    rw [← Bool.not_eq_true]
    intro hdeclaration
    obtain ⟨e, he⟩ := exists_run_error h ⟨t, ht, hdeclaration⟩ .start []
    rw [parse, statements, css, he] at hparse
    cases hparse
  · intro hplaced
    have hprintable := Statement.allPrintable_top_iff.2 ⟨h, hplaced⟩
    obtain ⟨s', hparse, -⟩ := (readsAs_sheetText _ hprintable).parse path
    exact ⟨_, hparse⟩

/-! ## From nodes to statements -/

variable {s : Sheet} {id : Nat}

theorem Linked.mem_body_iff (hs : s.Linked) {t : Statement} :
    t ∈ s.body id ↔ ∃ c ∈ s.children id, ∃ n, s.nodes[c]? = some n ∧
      t = .mk n.kind n.position (s.body c) := by
  rw [body, List.mem_flatMap]
  refine exists_congr fun c => and_congr_right fun hc => ?_
  obtain ⟨hlt, hparent⟩ := hs.below hc
  rw [if_pos ⟨hlt, lt_size_of_parent? hparent⟩, Option.mem_toList, Option.map_eq_some_iff]
  simp only [eq_comm]

theorem Linked.exists_statement (h : s.Linked) {c : Nat} (hc : c ∈ s.children id) :
    ∃ t ∈ s.body id, s.kind? c = some t.kind ∧ s.body c = t.body := by
  have hsize := lt_size_of_parent? (h.below hc).2
  refine ⟨.mk s.nodes[c].kind s.nodes[c].position (s.body c), h.mem_body_iff.2
    ⟨c, hc, _, Array.getElem?_eq_getElem hsize, rfl⟩, ?_, rfl⟩
  rw [kind?, Array.getElem?_eq_getElem hsize]
  rfl

theorem Linked.exists_child (h : s.Linked) {t : Statement} (ht : t ∈ s.body id) :
    ∃ c ∈ s.children id, s.kind? c = some t.kind ∧ s.body c = t.body := by
  obtain ⟨c, hc, n, hn, rfl⟩ := h.mem_body_iff.1 ht
  refine ⟨c, hc, ?_, rfl⟩
  rw [kind?, hn]
  rfl

theorem Linked.descendants_eq_nil (h : s.Linked) (hbody : s.body id = []) :
    s.descendants id = [] := by
  rw [h.descendants_eq, List.flatMap_eq_nil_iff]
  intro c hc
  obtain ⟨t, ht, -⟩ := h.exists_statement hc
  rw [hbody] at ht
  cases ht

/-- The texts of a node stand, and what is below it is shown. -/
def NodePrintable (s : Sheet) (id : Nat) : Prop :=
  (∀ k, s.kind? id = some k → k.Printable true) ∧ (s.ShowsBody id ∨ s.children id = [])

theorem Linked.allPrintable_body (hs : s.Linked) :
    (∀ x ∈ s.descendants id, s.NodePrintable x) → Statement.AllPrintable true (s.body id) := by
  induction id using hs.induction with
  | step id ih =>
    intro h
    refine Statement.allPrintable_iff.2 fun t ht => ?_
    obtain ⟨c, hc, n, hn, rfl⟩ := hs.mem_body_iff.1 ht
    have hk : s.kind? c = some n.kind := by rw [kind?, hn, Option.map_some]
    obtain ⟨hkind, hshows⟩ := h c (hs.mem_descendants_iff.2 ⟨c, hc, .inl rfl⟩)
    refine ⟨hkind _ hk, hshows.imp (fun hbody => hbody _ hk) fun hleaf => ?_, ?_⟩
    · rw [body, hleaf]
      rfl
    · exact ih c hc fun x hx => h x (hs.mem_descendants_iff.2 ⟨c, hc, .inr hx⟩)

theorem Linked.exists_parse_css_iff (hs : s.Linked)
    (h : ∀ x ∈ s.descendants root, s.NodePrintable x) (path : String) :
    (∃ s', parse s.css path = .ok s') ↔
      ∀ c ∈ s.children root, ∀ k, s.kind? c = some k → k.isDeclaration = false := by
  rw [Sheet.exists_parse_css_iff (hs.allPrintable_body h)]
  constructor
  · intro hplaced c hc k hk
    obtain ⟨n, hn, rfl⟩ := Option.map_eq_some_iff.1 hk
    exact hplaced _ (hs.mem_body_iff.2 ⟨c, hc, n, hn, rfl⟩)
  · intro hplaced t ht
    obtain ⟨c, hc, n, hn, rfl⟩ := hs.mem_body_iff.1 ht
    exact hplaced c hc n.kind (by rw [kind?, hn, Option.map_some])

/-! ## Declarations of parsed stylesheets -/

/-- No declaration is at the top of a stylesheet that was read. -/
theorem isDeclaration_of_parse {source path : String} {c : Nat} {k : Kind}
    (h : parse source path = .ok s) (hc : c ∈ s.children root) (hk : s.kind? c = some k) :
    k.isDeclaration = false := by
  have hs := (linked_showsChildren_of_parse h).1
  obtain ⟨n, hn, rfl⟩ := Option.map_eq_some_iff.1 hk
  have hmem := hs.mem_body_iff.2 ⟨c, hc, n, hn, rfl⟩
  obtain ⟨hformed, -⟩ := allFormed_iff.1 (allFormed_of_parse h) _ hmem
  cases hkind : n.kind with
  | declaration property value important =>
    rw [hkind] at hformed
    exact absurd hformed.1 (by decide)
  | _ => rfl

end CssTheming.Sheet
