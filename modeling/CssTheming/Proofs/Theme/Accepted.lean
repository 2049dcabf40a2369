import CssTheming.Proofs.Theme.Walk

/-!
# Sources that have a theme

Whether a source has a theme is told node by node: what the keys are, which of them name contexts,
and what the leaves hold. The theme then has the last leaf of each slot, with tokens put in, and no
context without a leaf.
-/

namespace CssTheming.Theme

variable {g : Grammar} {tokens : Table Literal} {tree : List (Document × Document)}
  {ls : List Leaf} {source : ThemeSource} {t : Theme}

/-! ## Values -/

/-- A value without its tags. -/
def untagged : Document → Document
  | .tagged _ value => untagged value
  | value => value

/-- Whether a value is a text or a number. -/
def isPrimitive (d : Document) : Bool :=
  match untagged d with
  | .text _ | .number _ => true
  | _ => false

/-- The names that a value has placeholders for. -/
def placeholdersOf (d : Document) : List String :=
  match untagged d with
  | .text value => placeholderNames value.toList
  | _ => []

theorem isSome_literal? (contexts : Bool) (tokens : Table Literal) : ∀ d : Document,
    (literal? ⟨contexts, some tokens⟩ d).isSome = true ↔ isPrimitive d = true ∧
      ∀ name ∈ placeholdersOf d, (tokens.get? name).isSome = true
  | .tagged _ value => by
    rw [literal?]
    exact isSome_literal? contexts tokens value
  | .text value => by
    have hsome : ((interpolate tokens value).toOption.map Literal.text).isSome =
        (interpolate tokens value).isOk := by
      cases interpolate tokens value <;> rfl
    rw [literal?, hsome, isOk_interpolate, List.all_eq_true]
    simp [isPrimitive, placeholdersOf, untagged]
  | .number _ | .null | .bool _ | .list _ | .mapping _ => by
    simp [literal?, isPrimitive, placeholdersOf, untagged]

/-! ## Whole trees -/

theorem mem_rawLeaves {l : RawLeaf} :
    l ∈ rawLeaves tree ↔ ∃ v ∈ visits [] tree, l ∈ v.leaves :=
  List.mem_flatMap

/-- A source's tree is flattened to what its leaves are read as, if all of it is sound. -/
theorem leaves_tree_eq_ok_iff :
    leaves g [] tree = .ok ls ↔
      (∀ v ∈ visits [] tree, v.Sound g) ∧ (rawLeaves tree).map (RawLeaf.read g) = ls := by
  rw [rawLeaves, List.map_flatMap]
  exact leaves_eq_ok_iff tree (List.forall_mem_nil _)

theorem map_leaves_eq_ok_iff {α : Type} {f : List Leaf → α} {a : α} :
    (leaves g [] tree).map f = .ok a ↔
      (∀ v ∈ visits [] tree, v.Sound g) ∧ f ((rawLeaves tree).map (RawLeaf.read g)) = a := by
  rw [map_eq_ok]
  simp only [leaves_tree_eq_ok_iff, and_assoc, exists_and_left, exists_eq_left']

theorem map_slot_read (g : Grammar) (tree : List (Document × Document)) :
    ((rawLeaves tree).map (RawLeaf.read g)).map Leaf.slot = (rawLeaves tree).map RawLeaf.slot := by
  rw [List.map_map]
  rfl

/-- What a leaf is read as is the literal that it is. -/
theorem value_read {l : RawLeaf} (h : (literal? g l.value).isSome = true) :
    some (l.read g).value = literal? g l.value := by
  obtain ⟨value, hvalue⟩ := Option.isSome_iff_exists.1 h
  rw [RawLeaf.read, hvalue]
  rfl

/-- The last leaf of a slot counts, with tokens put in. -/
theorem get?_ofLeaves_read (h : ∀ l ∈ rawLeaves tree, (literal? g l.value).isSome = true)
    (key : String) (context : Option String) :
    (ofLeaves ((rawLeaves tree).map (RawLeaf.read g))).get? key context =
      ((rawLeaves tree).reverse.find? (·.slot = (key, context))).bind fun l =>
        literal? g l.value := by
  rw [get?_ofLeaves, ← List.map_reverse, List.find?_map, Option.map_map]
  have hcomp : (fun l : Leaf => decide (l.slot = (key, context))) ∘ RawLeaf.read g =
      fun l => decide (l.slot = (key, context)) := rfl
  rw [hcomp]
  cases hfind : (rawLeaves tree).reverse.find? (·.slot = (key, context)) with
  | none => rfl
  | some l =>
    exact value_read (h l (List.mem_reverse.1 (List.mem_of_find?_eq_some hfind)))

theorem isSome_get?_ofLeaves_read (key : String) (context : Option String) :
    ((ofLeaves ((rawLeaves tree).map (RawLeaf.read g))).get? key context).isSome = true ↔
      ∃ l ∈ rawLeaves tree, l.slot = (key, context) := by
  rw [isSome_get?_ofLeaves, map_slot_read, List.mem_map]

theorem mem_contexts_ofLeaves_read {c : String} :
    c ∈ (ofLeaves ((rawLeaves tree).map (RawLeaf.read g))).contexts ↔
      ∃ l ∈ rawLeaves tree, l.context = some c := by
  rw [mem_contexts_ofLeaves, List.map_map, List.mem_map]
  rfl

/-! ## Themes -/

/-- The nodes of a tree are sound if its keys have names, no mapping is empty or has contexts beside
other keys, and the leaves are texts and numbers with placeholders of tokens. -/
theorem forall_sound_iff :
    (∀ v ∈ visits [] tree, v.Sound ⟨true, some tokens⟩) ↔
      (∀ v ∈ visits [] tree, (∀ key ∈ v.keys, isName key = true) ∧ v.value ≠ .mapping [] ∧
        ∀ entries, v.value = .mapping entries →
          (∀ e ∈ entries, isContextEntry e = false) ∨ ∀ e ∈ entries, isContextEntry e = true) ∧
      ∀ l ∈ rawLeaves tree, isPrimitive l.value = true ∧
        ∀ name ∈ placeholdersOf l.value, (tokens.get? name).isSome = true := by
  simp only [← isSome_literal? true tokens, mem_rawLeaves]
  constructor
  · intro h
    refine ⟨fun v hv => ⟨(h v hv).names, fun hnil => (h v hv).nonempty [] hnil rfl, ?_⟩, ?_⟩
    · intro entries hentries
      exact ((h v hv).uniform entries hentries).imp_right And.left
    · rintro l ⟨v, hv, hl⟩
      exact (h v hv).literals l hl
  · rintro ⟨hnodes, hleaves⟩ v hv
    obtain ⟨hnames, hnonempty, huniform⟩ := hnodes v hv
    refine ⟨hnames, ?_, ?_, fun l hl => hleaves l ⟨v, hv, hl⟩⟩
    · rintro _ hentries rfl
      exact hnonempty hentries
    · intro entries hentries
      exact (huniform entries hentries).imp_right fun hall => ⟨hall, rfl⟩

theorem ofSource_eq_ok_iff :
    ofSource source = .ok t ↔ ∃ tokens, tokenTable source = .ok tokens ∧
      (∀ v ∈ visits [] source.components, v.Sound ⟨true, some tokens⟩) ∧
        ofLeaves ((rawLeaves source.components).map (RawLeaf.read ⟨true, some tokens⟩)) = t := by
  rw [ofSource, bind_eq_ok]
  exact exists_congr fun _ => and_congr_right' map_leaves_eq_ok_iff

theorem tokenTable_eq_ok_iff :
    tokenTable source = .ok tokens ↔
      (∀ v ∈ visits [] (source.tokens.getD []), v.Sound ⟨false, none⟩) ∧
        (ofLeaves ((rawLeaves (source.tokens.getD [])).map
          (RawLeaf.read ⟨false, none⟩))).contextless = tokens := by
  have htable : tokenTable source =
      (leaves ⟨false, none⟩ [] (source.tokens.getD [])).map fun ls =>
        (ofLeaves ls).contextless := by
    rw [tokenTable]
    cases source.tokens <;> rfl
  rw [htable, map_leaves_eq_ok_iff]

/-- Components have a theme exactly if their keys are texts, numbers and booleans, no mapping in
them is empty, each has contexts only or none, and their leaves, tags aside, are texts and numbers
whose placeholders name tokens. The theme has for each slot the value of the last leaf in it, and
the contexts of leaves. -/
theorem exists_ofSource_iff (htokens : tokenTable source = .ok tokens) :
    ((∃ t, ofSource source = .ok t) ↔
      (∀ v ∈ visits [] source.components,
        (∀ key ∈ v.keys, isName key = true) ∧ v.value ≠ .mapping [] ∧
          ∀ entries, v.value = .mapping entries →
            (∀ e ∈ entries, isContextEntry e = false) ∨ ∀ e ∈ entries, isContextEntry e = true) ∧
      ∀ l ∈ rawLeaves source.components, isPrimitive l.value = true ∧
        ∀ name ∈ placeholdersOf l.value, (tokens.get? name).isSome = true) ∧
    ∀ t, ofSource source = .ok t →
      (∀ key context, t.get? key context =
        ((rawLeaves source.components).reverse.find? (·.slot = (key, context))).bind fun l =>
          literal? ⟨true, some tokens⟩ l.value) ∧
      ∀ c, c ∈ t.contexts ↔ ∃ l ∈ rawLeaves source.components, l.context = some c := by
  simp only [ofSource_eq_ok_iff, htokens, Except.ok.injEq, exists_eq_left', ← forall_sound_iff]
  refine ⟨by simp, ?_⟩
  rintro _ ⟨hsound, rfl⟩
  refine ⟨get?_ofLeaves_read fun l hl => ?_, fun c => mem_contexts_ofLeaves_read⟩
  obtain ⟨v, hv, hleaf⟩ := mem_rawLeaves.1 hl
  exact (hsound v hv).literals l hleaf

/-- Tags do not count, and of two leaves under `button.true.1` the later one does. -/
theorem exists_ofSource_iff_button :
    let source : ThemeSource := ⟨
      [(.text "button", .mapping [
        (.text "color", .tagged "!pair" (.mapping [(.text "$light", .text "white"),
          (.text "$dark", .tagged "!css" (.text "$\x7bink\x7d-$pad"))])),
        (.bool true, .mapping [(.number (.int 1), .number (.int 2))])]),
        (.text "button.true.1", .text "$pad px")],
      some [(.text "ink", .text "black"), (.text "pad", .number (.int 4))]⟩
    let tokens := (tokenTable source).toOption.getD .empty
    let t := (ofSource source).toOption.getD .empty
    tokenTable source = .ok tokens ∧ ofSource source = .ok t ∧
      (∀ v ∈ visits [] source.components, ∀ key ∈ v.keys, isName key = true) ∧
      t.get? "button.color" (some "dark") = some (.text "black-4") ∧
      t.get? "button.true.1" none = some (.text "4 px") ∧
      ∀ c, c ∈ t.contexts ↔ ∃ l ∈ rawLeaves source.components, l.context = some c := by
  intro source tokens t
  have htokens : tokenTable source = .ok tokens := eq_ok_of_isOk (by decide +kernel) _
  have hsource : ofSource source = .ok t := eq_ok_of_isOk (by decide +kernel) _
  obtain ⟨haccepted, htheme⟩ := exists_ofSource_iff htokens
  obtain ⟨hget, hcontexts⟩ := htheme t hsource
  refine ⟨htokens, hsource, fun v hv => ((haccepted.1 ⟨t, hsource⟩).1 v hv).1, ?_, ?_, hcontexts⟩
  · rw [hget]
    decide +kernel
  · rw [hget]
    decide +kernel

end CssTheming.Theme
