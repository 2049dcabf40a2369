import CssTheming.Proofs.ContextClass
import CssTheming.Proofs.Resolver.Declared
import CssTheming.Proofs.Sheet.Names
import CssTheming.Proofs.Table
import CssTheming.Theme.Stylesheet
import Mathlib.Data.List.Forall2

/-!
# Theme stylesheets read back

A theme is printed as a rule for the root and one for the class of each context, and read again by
another route: as rules with custom properties, whose names are unescaped and stripped of what the
options put in front of them. Both ends meet if the names can be written and each value stands for
itself.
-/

namespace CssTheming.Theme

open Sheet Identifier

/-! ## What a theme is printed as -/

def declarationOf (propertyPrefix : String) (e : String × Literal) : Statement :=
  .mk (.declaration (CustomProperty.name propertyPrefix e.1) e.2.css false) nowhere []

def ruleOf (propertyPrefix selector : String) (table : Table Literal) : Statement :=
  .mk (.rule selector) nowhere (table.entries.map (declarationOf propertyPrefix))

def statements (t : Theme) (propertyPrefix contextClassPrefix : String) : List Statement :=
  ruleOf propertyPrefix ":root" t.contextless :: t.contextual.entries.map fun e =>
    ruleOf propertyPrefix (ContextClass.selector contextClassPrefix e.1) e.2

theorem appendTable_eq (propertyPrefix selector : String) (table : Table Literal) (s : Sheet) :
    appendTable propertyPrefix selector table s = s.add root (ruleOf propertyPrefix selector table) :=
  foldl_eq_addAll
    (fun sheet e => appendDeclaration_eq sheet s.size (CustomProperty.name propertyPrefix e.1)
      e.2.css)
    table.entries (s.appendRule root selector)

theorem toSheet_eq (t : Theme) (propertyPrefix contextClassPrefix : String) :
    t.toSheet propertyPrefix contextClassPrefix =
      ofStatements "theme.css" (t.statements propertyPrefix contextClassPrefix) := by
  rw [toSheet, ofStatements, statements, addAll, ← appendTable_eq]
  exact foldl_eq_addAll
    (fun sheet e => appendTable_eq propertyPrefix (ContextClass.selector contextClassPrefix e.1) e.2
      sheet)
    t.contextual.entries _

theorem css_eq (t : Theme) (propertyPrefix contextClassPrefix : String) :
    t.css propertyPrefix contextClassPrefix =
      Statement.sheetText (t.statements propertyPrefix contextClassPrefix) := by
  rw [css, toSheet_eq, Sheet.css, body_ofStatements]

/-! ## Themes that can be read -/

/-- A name without white space that has no character that cannot be written. -/
def IsWritable (name : String) : Prop :=
  ∀ c ∈ name.toList, c ≠ '\x00' ∧ Text.isWhitespace c = false

instance (name : String) : Decidable (IsWritable name) :=
  List.decidableBAll (fun c => c ≠ '\x00' ∧ Text.isWhitespace c = false) name.toList

/-- A trimmed value that leaves nothing open, has no end of a declaration or a block outside what
hides it and does not say that it is important. -/
def StandsAlone (value : String) : Prop :=
  Stands headStops value.toList ∧ Text.trim value.toList = value.toList ∧
    splitImportant value.toList = (value.toList, false)

instance (value : String) : Decidable (StandsAlone value) :=
  inferInstanceAs (Decidable (_ ∧ _ ∧ _))

def TableIsReadable (table : Table Literal) : Prop :=
  ∀ e ∈ table.entries, IsWritable e.1 ∧ StandsAlone e.2.css

instance (table : Table Literal) : Decidable (TableIsReadable table) :=
  List.decidableBAll (fun e : String × Literal => IsWritable e.1 ∧ StandsAlone e.2.css)
    table.entries

structure IsReadable (t : Theme) (propertyPrefix contextClassPrefix : String) : Prop where
  property : IsWritable propertyPrefix
  contextClass : IsWritable contextClassPrefix
  contextless : TableIsReadable t.contextless
  contextual : ∀ e ∈ t.contextual.entries,
    IsWritable e.1 ∧ contextClassPrefix ++ e.1 ≠ "" ∧ TableIsReadable e.2

instance (t : Theme) (propertyPrefix contextClassPrefix : String) :
    Decidable (t.IsReadable propertyPrefix contextClassPrefix) :=
  have : Decidable (∀ e ∈ t.contextual.entries,
      IsWritable e.1 ∧ contextClassPrefix ++ e.1 ≠ "" ∧ TableIsReadable e.2) :=
    List.decidableBAll (fun e : String × Table Literal =>
      IsWritable e.1 ∧ contextClassPrefix ++ e.1 ≠ "" ∧ TableIsReadable e.2) t.contextual.entries
  decidable_of_iff (IsWritable propertyPrefix ∧ IsWritable contextClassPrefix ∧
      TableIsReadable t.contextless ∧ ∀ e ∈ t.contextual.entries,
        IsWritable e.1 ∧ contextClassPrefix ++ e.1 ≠ "" ∧ TableIsReadable e.2)
    ⟨fun ⟨h₁, h₂, h₃, h₄⟩ => ⟨h₁, h₂, h₃, h₄⟩, fun ⟨h₁, h₂, h₃, h₄⟩ => ⟨h₁, h₂, h₃, h₄⟩⟩

section Names

variable {start name : String}

theorem IsWritable.append (hstart : IsWritable start) (hname : IsWritable name) :
    (∀ c ∈ (start ++ name).toList, c ≠ '\x00') ∧ IsSolid (start ++ name).toList := by
  have hall : ∀ c ∈ (start ++ name).toList, c ≠ '\x00' ∧ Text.isWhitespace c = false := by
    intro c hc
    rw [String.toList_append, List.mem_append] at hc
    exact hc.elim (hstart c) (hname c)
  exact ⟨fun c hc => (hall c hc).1, fun c hc => (hall c hc).2⟩

end Names

/-! ## What it is read as -/

variable {t : Theme} {propertyPrefix contextClassPrefix selector : String}

/-- A declaration as the reader sees it. -/
def readDeclaration (propertyPrefix : String) (e : String × Literal) : Statement :=
  .mk (declaration (CustomProperty.name propertyPrefix e.1).toList
    (valueText e.2.css.toList false)) nowhere []

/-- A rule as the reader sees it. -/
def readRule (propertyPrefix selector : String) (table : Table Literal) : Statement :=
  .mk (rule (selector.toList ++ [' '])) nowhere
    (table.entries.map (readDeclaration propertyPrefix))

def readStatements (t : Theme) (propertyPrefix contextClassPrefix : String) : List Statement :=
  readRule propertyPrefix ":root" t.contextless :: t.contextual.entries.map fun e =>
    readRule propertyPrefix (ContextClass.selector contextClassPrefix e.1) e.2

theorem readsAs_declarationOf (hproperty : IsWritable propertyPrefix) {e : String × Literal}
    (hkey : IsWritable e.1) (hvalue : StandsAlone e.2.css) (depth : Nat) :
    ReadsAs true ((declarationOf propertyPrefix e).text depth).toList
      [readDeclaration propertyPrefix e] := by
  have hwritten := written_encodeNameChars (hproperty.append hkey).1
  have hread := (readsAs_hyphened hwritten (stands_valueText hvalue.1 false) nowhere).line depth
  rw [hyphened, ← CustomProperty.toList_name] at hread
  rw [declarationOf, readDeclaration, Statement.text, String.toList_append, String.toList_append,
    headText_declaration]
  simpa using hread

theorem readsAs_ruleOf (hproperty : IsWritable propertyPrefix) {table : Table Literal}
    (htable : TableIsReadable table)
    (hopens : OpensAs false (selector.toList ++ [' ']) (rule (selector.toList ++ [' ']))) :
    ReadsAs false ((ruleOf propertyPrefix selector table).text 0).toList
      [readRule propertyPrefix selector table] := by
  have hbody : EachReadsAs true 1 (table.entries.map (declarationOf propertyPrefix))
      (table.entries.map (readDeclaration propertyPrefix)) := by
    rw [EachReadsAs, List.forall₂_map_left_iff, List.forall₂_map_right_iff, List.forall₂_same]
    intro e he
    exact readsAs_declarationOf hproperty (htable e he).1 (htable e he).2 1
  have hhead : OpensAs false ((Statement.headText (.rule selector)).toList ++ [' '])
      (rule (selector.toList ++ [' '])) := hopens
  exact hhead.text (by simp) rfl hbody.bodyText nowhere

theorem opensAs_selector (hclass : IsWritable contextClassPrefix) {context : String}
    (hcontext : IsWritable context) :
    OpensAs false ((ContextClass.selector contextClassPrefix context).toList ++ [' '])
      (rule ((ContextClass.selector contextClassPrefix context).toList ++ [' '])) := by
  rw [ContextClass.toList_selector]
  exact opensAs_class (written_encodeChars (hclass.append hcontext).1)

theorem readsAs_css (h : t.IsReadable propertyPrefix contextClassPrefix) :
    ReadsAs false (t.css propertyPrefix contextClassPrefix).toList
      (t.readStatements propertyPrefix contextClassPrefix) := by
  have hroot : OpensAs false (":root".toList ++ [' ']) (rule (":root".toList ++ [' '])) :=
    opensAs_head (by decide) (by decide +kernel) rfl
  have hcontexts : EachReadsAs false 0
      (t.contextual.entries.map fun e =>
        ruleOf propertyPrefix (ContextClass.selector contextClassPrefix e.1) e.2)
      (t.contextual.entries.map fun e =>
        readRule propertyPrefix (ContextClass.selector contextClassPrefix e.1) e.2) := by
    rw [EachReadsAs, List.forall₂_map_left_iff, List.forall₂_map_right_iff, List.forall₂_same]
    intro e he
    obtain ⟨hname, -, htable⟩ := h.contextual e he
    exact readsAs_ruleOf h.property htable (opensAs_selector h.contextClass hname)
  rw [css_eq]
  exact EachReadsAs.sheetText
    (.cons (readsAs_ruleOf h.property h.contextless hroot) hcontexts)

/-! ## What it declares -/

/-- The custom properties of a table. -/
def declared (propertyPrefix : String) (table : Table Literal) : List (String × String) :=
  table.prefixed ("--" ++ propertyPrefix) Literal.css

/-- The custom properties of a theme, by the names of the classes of its contexts. -/
def properties (t : Theme) (propertyPrefix contextClassPrefix : String) : CustomProperties :=
  ⟨.ofList (declared propertyPrefix t.contextless),
    .ofList (t.contextual.prefixed contextClassPrefix fun table =>
      .ofList (declared propertyPrefix table))⟩

theorem declaredBy?_readDeclaration (hproperty : IsWritable propertyPrefix) {e : String × Literal}
    (hkey : IsWritable e.1) (hvalue : StandsAlone e.2.css) :
    CustomProperties.declaredBy? (readDeclaration propertyPrefix e).kind =
      some ("--" ++ propertyPrefix ++ e.1, e.2.css) := by
  obtain ⟨hne, hsolid⟩ := hproperty.append hkey
  have hdecode := decode?_trim_hyphened (written_encodeNameChars hne) hsolid
  rw [hyphened, ← CustomProperty.toList_name] at hdecode
  have hkind : (readDeclaration propertyPrefix e).kind =
      .declaration (String.ofList (Text.trim (CustomProperty.name propertyPrefix e.1).toList))
        e.2.css false := by
    rw [readDeclaration, Statement.kind, valueText, if_neg (by decide), List.append_nil,
      declaration_plain _ hvalue.2.1 hvalue.2.2, String.ofList_toList]
  have hstarts : Text.startsWith
      (String.ofList (Text.trim (CustomProperty.name propertyPrefix e.1).toList)) "--" = true := by
    rw [CustomProperty.toList_name, ← hyphened, trim_hyphened, Text.startsWith, hyphened]
    simp
  rw [hkind, CustomProperties.declaredBy?, if_pos hstarts, hdecode, Option.map_some, hvalue.2.1,
    String.ofList_toList]
  simp [hyphened, ← String.toList_inj]

theorem declaredIn_readRule (hproperty : IsWritable propertyPrefix) {table : Table Literal}
    (htable : TableIsReadable table) :
    CustomProperties.declaredIn (readRule propertyPrefix selector table).body =
      declared propertyPrefix table := by
  have hbody : (readRule propertyPrefix selector table).body =
      table.entries.map (readDeclaration propertyPrefix) :=
    rfl
  have heach : ∀ e ∈ table.entries,
      ((fun st : Statement => CustomProperties.declaredBy? st.kind) ∘
        readDeclaration propertyPrefix) e =
        (some ∘ fun e => ("--" ++ propertyPrefix ++ e.1, Literal.css e.2)) e := by
    intro e he
    rw [Function.comp_apply, declaredBy?_readDeclaration hproperty (htable e he).1 (htable e he).2,
      Function.comp_apply]
  rw [hbody, CustomProperties.declaredIn, List.filterMap_map, List.filterMap_congr heach,
    List.filterMap_eq_map, declared, Table.prefixed]

theorem addStatement_root (hproperty : IsWritable propertyPrefix) {table : Table Literal}
    (htable : TableIsReadable table) :
    CustomProperties.addStatement .empty (readRule propertyPrefix ":root" table) =
      ⟨.ofList (declared propertyPrefix table), .empty⟩ := by
  have hrule : rule (":root".toList ++ [' ']) = .rule ":root" := by decide +kernel
  have hkind : (readRule propertyPrefix ":root" table).kind = .rule ":root" := hrule
  have hsplit : Selectors.split ":root" = [":root"] := by decide +kernel
  rw [CustomProperties.addStatement, hkind, declaredIn_readRule hproperty htable]
  dsimp only
  rw [hsplit, List.foldl_cons, List.foldl_nil, CustomProperties.addSelector, if_pos rfl]
  rfl

theorem addStatement_context (hproperty : IsWritable propertyPrefix)
    (hclass : IsWritable contextClassPrefix) {context : String} (hcontext : IsWritable context)
    (hne : contextClassPrefix ++ context ≠ "") {table : Table Literal}
    (htable : TableIsReadable table) (p : CustomProperties)
    (hnew : p.classes.get? (contextClassPrefix ++ context) = none) :
    CustomProperties.addStatement p
        (readRule propertyPrefix (ContextClass.selector contextClassPrefix context) table) =
      { p with
        classes := p.classes.insert (contextClassPrefix ++ context)
          (.ofList (declared propertyPrefix table)) } := by
  obtain ⟨hzero, hsolid⟩ := hclass.append hcontext
  have hwritten := written_encodeChars hzero
  have hstart := startsIdentifier_trimEnd (hwritten.spaced hsolid).eq_trimEnd
    (startsIdentifier_encodeChars (by simpa using hne) hzero)
  have hkind : (readRule propertyPrefix
        (ContextClass.selector contextClassPrefix context) table).kind = .rule
      (String.ofList ('.' :: Text.trimEnd (encodeChars (contextClassPrefix ++ context).toList))) := by
    rw [readRule, Statement.kind, ContextClass.toList_selector, rule_class hwritten hsolid]
  have htrimmed := hwritten.trimEnd hsolid
  have hagain := Text.trimEnd_trimEnd (encodeChars (contextClassPrefix ++ context).toList)
  rw [CustomProperties.addStatement, hkind, declaredIn_readRule hproperty htable]
  generalize Text.trimEnd (encodeChars (contextClassPrefix ++ context).toList) = w at *
  have hsplit : Selectors.split (String.ofList ('.' :: w)) = [String.ofList ('.' :: w)] := by
    rw [split_class htrimmed, Text.trim_cons_of_not (by decide), hagain]
  have hroot : String.ofList ('.' :: w) ≠ ":root" := by
    intro heq
    have hlist := congrArg String.toList heq
    rw [String.toList_ofList] at hlist
    exact absurd (List.cons.inj hlist).1 (by decide)
  have hstrip : Text.stripStart? "." (String.ofList ('.' :: w)) = some (String.ofList w) :=
    Text.stripStart?_eq_some.2 (by simp)
  have hdecode : decode? (String.ofList w) = some (contextClassPrefix ++ context) := by
    rw [decode?, String.toList_ofList, htrimmed.decodeChars? hstart, Option.map_some,
      String.ofList_toList]
  dsimp only
  rw [hsplit, List.foldl_cons, List.foldl_nil, CustomProperties.addSelector, if_neg hroot, hstrip,
    Option.bind_some, hdecode]
  dsimp only
  rw [hnew]
  rfl

theorem foldl_contexts (hproperty : IsWritable propertyPrefix)
    (hclass : IsWritable contextClassPrefix) {entries : List (String × Table Literal)}
    (hdistinct : Table.DistinctKeys entries)
    (hall : ∀ e ∈ entries, IsWritable e.1 ∧ contextClassPrefix ++ e.1 ≠ "" ∧ TableIsReadable e.2)
    (p : CustomProperties)
    (hnew : ∀ e ∈ entries, p.classes.get? (contextClassPrefix ++ e.1) = none) :
    (entries.map fun e => readRule propertyPrefix
        (ContextClass.selector contextClassPrefix e.1) e.2).foldl CustomProperties.addStatement p =
      { p with
        classes := p.classes.insertAll (entries.map fun e =>
          (contextClassPrefix ++ e.1, .ofList (declared propertyPrefix e.2))) } := by
  induction entries generalizing p with
  | nil => rfl
  | cons e entries ih =>
    obtain ⟨hnotin, hrest⟩ := List.nodup_cons.1 hdistinct
    obtain ⟨hcontext, hne, htable⟩ := hall e List.mem_cons_self
    have hstep := addStatement_context hproperty hclass hcontext hne htable p
      (hnew e List.mem_cons_self)
    rw [List.map_cons, List.foldl_cons, hstep]
    refine ih hrest (fun e' he' => hall e' (List.mem_cons_of_mem e he')) _ fun e' he' => ?_
    have hkey : contextClassPrefix ++ e'.1 ≠ contextClassPrefix ++ e.1 := fun heq =>
      hnotin (List.mem_map.2 ⟨e', he', Table.append_inj_right heq⟩)
    rw [Table.get?_insert, if_neg hkey]
    exact hnew e' (List.mem_cons_of_mem e he')

theorem foldl_addStatement (h : t.IsReadable propertyPrefix contextClassPrefix) :
    (t.readStatements propertyPrefix contextClassPrefix).foldl CustomProperties.addStatement .empty =
      t.properties propertyPrefix contextClassPrefix := by
  rw [readStatements, List.foldl_cons, addStatement_root h.property h.contextless,
    foldl_contexts h.property h.contextClass t.contextual.distinctKeys_entries h.contextual _
      fun _ _ => rfl]
  rfl

/-- The stylesheet of a theme declares what the theme says. -/
theorem read_css (h : t.IsReadable propertyPrefix contextClassPrefix) (path : String) :
    CustomProperties.read (t.css propertyPrefix contextClassPrefix) path =
      .ok (t.properties propertyPrefix contextClassPrefix) := by
  rw [CustomProperties.read_of_readsAs (readsAs_css h), foldl_addStatement h]

/-! ## The tables -/

theorem keysOf_declared (propertyPrefix : String) (table : Table Literal) :
    ThemeTables.keysOf propertyPrefix (.ofList (declared propertyPrefix table)) =
      table.map Literal.css := by
  refine Table.ext_get? fun key => ?_
  have hstripped := Table.get?_ofList_stripped ("--" ++ propertyPrefix) id
    (.ofList (declared propertyPrefix table)) key
  rw [Option.map_id, declared, Table.get?_ofList_prefixed, id] at hstripped
  rw [Table.get?_map, ← hstripped]
  rfl

theorem ofProperties_properties (t : Theme) (options : Options) :
    ThemeTables.ofProperties options
        (t.properties options.propertyPrefix options.contextClassPrefix) =
      ⟨t.contextless.map Literal.css, t.contextual.map fun table => table.map Literal.css⟩ := by
  have hcontextless : ThemeTables.keysOf options.propertyPrefix
      (t.properties options.propertyPrefix options.contextClassPrefix).root =
        t.contextless.map Literal.css :=
    keysOf_declared options.propertyPrefix t.contextless
  have hcontextual : Table.ofList ((t.properties options.propertyPrefix
        options.contextClassPrefix).classes.stripped options.contextClassPrefix
          (ThemeTables.keysOf options.propertyPrefix)) =
      t.contextual.map fun table => table.map Literal.css := by
    refine Table.ext_get? fun context => ?_
    rw [Table.get?_ofList_stripped, properties, Table.get?_ofList_prefixed, Table.get?_map,
      Option.map_map]
    congr 1
    funext table
    exact keysOf_declared options.propertyPrefix table
  rw [ThemeTables.ofProperties, hcontextless]
  exact congrArg (ThemeTables.mk _) hcontextual

/-- From the stylesheet of a theme exactly its tables are read, also those that are empty, with
every value as it is displayed. -/
theorem read_themeTables (t : Theme) (options : Options)
    (h : t.IsReadable options.propertyPrefix options.contextClassPrefix) :
    ThemeTables.read (t.css options.propertyPrefix options.contextClassPrefix) options =
      .ok ⟨t.contextless.map Literal.css, t.contextual.map fun table => table.map Literal.css⟩ := by
  rw [ThemeTables.read, read_css h, Except.map, ofProperties_properties]

/-- A theme whose names need escapes at their starts and at their ends. -/
def odd : Theme :=
  ⟨.ofList [("button.width", .number (.int 4)), ("7\x01", .text "'a;b' [\x7b]")],
    .ofList [("dark\x7f", .ofList [("button.width", .text "")]), ("empty", .empty)]⟩

theorem read_themeTables_odd :
    odd.IsReadable "m-" "1/" ∧
      (ThemeTables.read (odd.css "m-" "1/")
          { propertyPrefix := "m-", contextClassPrefix := "1/" }).toOption.map
        (fun tables => (tables.contextless.entries, tables.contextual.entries.map fun e =>
          (e.1, e.2.entries))) =
        some ([("7\x01", "'a;b' [\x7b]"), ("button.width", "4")],
          [("dark\x7f", [("button.width", "")]), ("empty", [])]) := by
  have h : odd.IsReadable "m-" "1/" := by decide +kernel
  refine ⟨h, ?_⟩
  rw [read_themeTables odd { propertyPrefix := "m-", contextClassPrefix := "1/" } h]
  decide +kernel

end CssTheming.Theme
