import CssTheming.Proofs.Fallback.Rules
import CssTheming.Proofs.Sheet.Placement

/-!
# Where fallback declarations stand

A compiled stylesheet may use a key in a rule inside of other rules and at-rules. Its fallback knows
the selectors of the rule only: it declares everything in rules at the top, whatever was around it.
-/

namespace CssTheming.Fallback

open Sheet

variable {t : Theme} {blocks : List Block} {us : List SchemaUsage}

/-! ## The generated stylesheet -/

theorem linked_sheetOf (blocks : List Block) : (sheetOf blocks).Linked := by
  rw [sheetOf_eq]
  exact linked_ofStatements _ _

theorem body_sheetOf (blocks : List Block) :
    (sheetOf blocks).body root = blocks.map Block.statement := by
  rw [sheetOf_eq]
  exact body_ofStatements _ _

/-- Every generated declaration stands directly in a rule at the top. -/
theorem exists_of_mem_declarations {id : Nat} (hid : id ∈ (sheetOf blocks).declarations root) :
    ∃ b ∈ blocks, ∃ d ∈ b.declarations, (sheetOf blocks).enclosing id = [.rule b.selector] ∧
      (sheetOf blocks).kind? id = some (.declaration d.1 d.2 false) := by
  have hlinked := linked_sheetOf blocks
  obtain ⟨hbelow, hdeclaration⟩ := List.mem_filter.1 hid
  obtain ⟨c, hc, hid⟩ := hlinked.mem_descendants_iff.1 hbelow
  obtain ⟨_, hrule, hkind, hbody⟩ := hlinked.exists_statement hc
  rw [body_sheetOf] at hrule
  obtain ⟨b, hb, rfl⟩ := List.mem_map.1 hrule
  rcases hid with rfl | hid
  · rw [hkind] at hdeclaration
    cases hdeclaration
  obtain ⟨d', hd', hid⟩ := hlinked.mem_descendants_iff.1 hid
  obtain ⟨_, hstatement, hkind', hbody'⟩ := hlinked.exists_statement hd'
  rw [hbody] at hstatement
  obtain ⟨d, hd, rfl⟩ := List.mem_map.1 hstatement
  rw [hlinked.descendants_eq_nil hbody'] at hid
  obtain rfl : id = d' := hid.resolve_right (by simp)
  exact ⟨b, hb, d, hd, hlinked.enclosing_of_children hc hkind hd', hkind'⟩

theorem declares_sheetOf_iff {around : List Kind} {property : String} :
    (sheetOf blocks).Declares around property ↔
      ∃ b ∈ blocks, (∃ value, (property, value) ∈ b.declarations) ∧
        around = [.rule b.selector] := by
  constructor
  · rintro ⟨id, hid, rfl, value, important, hkind⟩
    obtain ⟨b, hb, d, hd, hrule, hkind'⟩ := exists_of_mem_declarations hid
    rw [hkind] at hkind'
    cases hkind'
    exact ⟨b, hb, ⟨d.2, hd⟩, hrule⟩
  · rintro ⟨b, hb, ⟨value, hd⟩, rfl⟩
    have hlinked := linked_sheetOf blocks
    have hrule : b.statement ∈ (sheetOf blocks).body root := by
      rw [body_sheetOf]
      exact List.mem_map_of_mem hb
    obtain ⟨c, hc, hkind, hbody⟩ := hlinked.exists_child hrule
    have hstatement : .mk (.declaration property value false) nowhere [] ∈
        (sheetOf blocks).body c := by
      rw [hbody]
      exact List.mem_map.2 ⟨(property, value), hd, rfl⟩
    obtain ⟨id, hid, hkind', -⟩ := hlinked.exists_child hstatement
    refine ⟨id, List.mem_filter.2 ⟨?_, ?_⟩, hlinked.enclosing_of_children hc hkind hid,
      value, false, hkind'⟩
    · exact hlinked.mem_descendants_iff.2
        ⟨c, hc, .inr (hlinked.mem_descendants_iff.2 ⟨id, hid, .inl rfl⟩)⟩
    · rw [hkind']
      rfl

/-- The selectors of the rules that declare the property of a usage. -/
def targets (t : Theme) (contextClassPrefix : String) (u : SchemaUsage) : List String :=
  if isPlain t u then [listOf u]
  else t.contexts.flatMap fun context => u.selectors.map fun selector =>
    ContextClass.selector contextClassPrefix context ++ " " ++ selector

theorem exists_entry_iff {contextClassPrefix selector property : String} :
    (∃ e ∈ plainEntries t us ++ scopedEntries t contextClassPrefix (us.filter (!isPlain t ·))
        t.contexts, e.selector = selector ∧ e.property = property) ↔
      ∃ u ∈ us, u.property = property ∧ selector ∈ targets t contextClassPrefix u := by
  constructor
  · rintro ⟨e, he, rfl, rfl⟩
    rcases List.mem_append.1 he with he | he
    · obtain ⟨u, hu, rfl⟩ := List.mem_map.1 he
      obtain ⟨hu, hplain⟩ := List.mem_filter.1 hu
      refine ⟨u, hu, rfl, ?_⟩
      rw [targets, if_pos hplain]
      exact List.mem_singleton_self _
    · obtain ⟨c, hc, he⟩ := List.mem_flatMap.1 he
      obtain ⟨u, hu, he⟩ := List.mem_flatMap.1 he
      obtain ⟨selector, hselector, rfl⟩ := List.mem_map.1 he
      obtain ⟨hu, hother⟩ := List.mem_filter.1 hu
      refine ⟨u, hu, rfl, ?_⟩
      rw [targets, if_neg (by simpa using hother)]
      exact List.mem_flatMap.2 ⟨c, hc, List.mem_map.2 ⟨selector, hselector, rfl⟩⟩
  · rintro ⟨u, hu, rfl, hselector⟩
    rw [targets] at hselector
    split at hselector
    · rename_i hplain
      obtain rfl := List.mem_singleton.1 hselector
      refine ⟨plainEntry t u, List.mem_append_left _ ?_, rfl, rfl⟩
      exact List.mem_map_of_mem (List.mem_filter.2 ⟨hu, hplain⟩)
    · rename_i hother
      obtain ⟨c, hc, hselector⟩ := List.mem_flatMap.1 hselector
      obtain ⟨own, hown, rfl⟩ := List.mem_map.1 hselector
      have hu : u ∈ us.filter (!isPlain t ·) := List.mem_filter.2 ⟨hu, by simpa using hother⟩
      refine ⟨scopedEntry t c _ u own, List.mem_append_right _ ?_, rfl, rfl⟩
      exact List.mem_flatMap.2 ⟨c, hc, List.mem_flatMap.2 ⟨u, hu, List.mem_map_of_mem hown⟩⟩

/-- A fallback declares the properties of its usages, each in rules of its own at the top. -/
theorem declares_iff {contextClassPrefix : String} (h : rules t us contextClassPrefix = .ok blocks)
    {around : List Kind} {property : String} :
    (sheetOf blocks).Declares around property ↔
      ∃ u ∈ us, u.property = property ∧
        ∃ target ∈ targets t contextClassPrefix u, around = [.rule target] := by
  obtain ⟨-, rfl⟩ := rules_eq_ok_iff.1 h
  generalize hentries : scopedEntries t contextClassPrefix (us.filter (!isPlain t ·)) t.contexts =
    others
  have hblocks (selector : String) :
      (∃ b ∈ collect (plainEntries t us) ++ collect others, b.selector = selector ∧
          ∃ value, (property, value) ∈ b.declarations) ↔
        ∃ u ∈ us, u.property = property ∧ selector ∈ targets t contextClassPrefix u := by
    rw [← exists_entry_iff, hentries]
    simp only [List.mem_append, or_and_right, exists_or, exists_mem_collect_iff]
  rw [declares_sheetOf_iff]
  constructor
  · rintro ⟨b, hb, hvalue, rfl⟩
    obtain ⟨u, hu, hproperty, htarget⟩ := (hblocks b.selector).1 ⟨b, hb, rfl, hvalue⟩
    exact ⟨u, hu, hproperty, b.selector, htarget, rfl⟩
  · rintro ⟨u, hu, hproperty, target, htarget, rfl⟩
    obtain ⟨b, hb, rfl, hvalue⟩ := (hblocks target).2 ⟨u, hu, hproperty, htarget⟩
    exact ⟨b, hb, hvalue, rfl⟩

/-! ## Against the stylesheet it stands for -/

variable {s : Sheet} {id : Nat} {u : SchemaUsage} {propertyPrefix : String}

/-- A usage stands directly in a rule and has its selectors. -/
theorem exists_rule_of_usageAt (h : Schema.usageAt propertyPrefix s id = .ok (some u)) :
    ∃ rule selector, s.parent? id = some rule ∧ s.kind? rule = some (.rule selector) ∧
      u.selectors = Selectors.split selector := by
  rw [Schema.usageAt] at h
  split at h
  · dsimp only at h
    split at h
    · split at h
      · rename_i rule hrule
        cases h
        obtain ⟨hparent, hrule⟩ := Option.filter_eq_some_iff.1 hrule
        obtain ⟨k, hk, hkind⟩ := (Option.any_eq_true _ _).1 hrule
        cases k with
        | rule selector => exact ⟨rule, selector, hparent, hk, by rw [Sheet.selectors, hk]⟩
        | _ => cases hkind
      · cases h
    · cases h
  · cases h

theorem exists_enclosing_of_usageAt (hs : s.Linked) (hroot : s.kind? root = some .root)
    (h : Schema.usageAt propertyPrefix s id = .ok (some u)) :
    ∃ outer selector, s.enclosing id = outer ++ [.rule selector] ∧
      u.selectors = Selectors.split selector := by
  obtain ⟨rule, selector, hparent, hrule, hselectors⟩ := exists_rule_of_usageAt h
  have hne : rule ≠ root := by
    rintro rfl
    rw [hroot] at hrule
    cases hrule
  refine ⟨s.enclosing rule, selector, ?_, hselectors⟩
  rw [hs.enclosing_eq hparent, if_neg hne, hrule]
  rfl

theorem mem_usages_iff {css path : String} {schema : Schema} (hparse : parse css path = .ok s)
    (h : Schema.extract css path propertyPrefix = .ok schema) :
    u ∈ schema.usages ↔
      ∃ id ∈ s.declarations root, Schema.usageAt propertyPrefix s id = .ok (some u) := by
  obtain ⟨s', hparse', h⟩ := bind_eq_ok.1 h
  obtain rfl : s = s' := Except.ok.inj (hparse.symm.trans hparse')
  obtain ⟨usages, husages, h⟩ := bind_eq_ok.1 h
  cases h
  simp [mem_of_mapM_eq_ok husages]

/-- A fallback declares the property of every usage in rules at the top and nothing else, whatever
is around the usage. So what it declares stands inside of the same nodes exactly if the rule of the
usage stands at the top. -/
theorem declares_css {css path text : String} {schema : Schema} (options : Options)
    (hextract : Schema.extract css path options.propertyPrefix = .ok schema)
    (hcss : Fallback.css t schema.usages options = .ok text) :
    ∃ (s : Sheet) (blocks : List Block), parse css path = .ok s ∧
      rules t schema.usages options.contextClassPrefix = .ok blocks ∧ (sheetOf blocks).css = text ∧
      (∀ id ∈ s.declarations root, ∀ u,
        Schema.usageAt options.propertyPrefix s id = .ok (some u) →
          ∃ outer selector, s.enclosing id = outer ++ [.rule selector] ∧
            u.selectors = Selectors.split selector ∧
            ∀ target ∈ targets t options.contextClassPrefix u,
              (sheetOf blocks).Declares [.rule target] u.property ∧
              ((sheetOf blocks).Declares (outer ++ [.rule target]) u.property ↔ outer = [])) ∧
      ∀ around property, (sheetOf blocks).Declares around property →
        ∃ id ∈ s.declarations root, ∃ u,
          Schema.usageAt options.propertyPrefix s id = .ok (some u) ∧ u.property = property ∧
          ∃ target ∈ targets t options.contextClassPrefix u, around = [.rule target] := by
  obtain ⟨s, hparse, -⟩ := bind_eq_ok.1 hextract
  obtain ⟨hs, -⟩ := linked_showsChildren_of_parse hparse
  obtain ⟨blocks, hrules, htext⟩ := css_eq_ok_iff.1 hcss
  have husages := fun u => mem_usages_iff (u := u) hparse hextract
  refine ⟨s, blocks, hparse, hrules, htext, fun id hid u hu => ?_, fun around property h => ?_⟩
  · obtain ⟨outer, selector, henclosing, hselectors⟩ :=
      exists_enclosing_of_usageAt hs (kind?_root_of_parse hparse) hu
    refine ⟨outer, selector, henclosing, hselectors, fun target htarget => ?_⟩
    have hdeclares : (sheetOf blocks).Declares [.rule target] u.property :=
      (declares_iff hrules).2 ⟨u, (husages u).2 ⟨id, hid, hu⟩, rfl, target, htarget, rfl⟩
    refine ⟨hdeclares, fun hinside => ?_, ?_⟩
    · obtain ⟨-, -, -, target', -, hchain⟩ := (declares_iff hrules).1 hinside
      have hlength := congrArg List.length hchain
      exact List.length_eq_zero_iff.1 (by simpa using hlength)
    · rintro rfl
      exact hdeclares
  · obtain ⟨u, hu, hproperty, htarget⟩ := (declares_iff hrules).1 h
    obtain ⟨id, hid, hu⟩ := (husages u).1 hu
    exact ⟨id, hid, u, hu, hproperty, htarget⟩

/-- Two selectors inside of a print block, with a value in one context only. -/
theorem declares_css_print :
    let css := "@media print\x7b.a,.b\x7bcolor:var(--makeup-k)\x7d\x7d"
    let t := Theme.empty.insert "k" (some "dark") (.text "red")
    let s := (parse css "a.css").toOption.getD default
    let schema := (Schema.extract css "a.css" "makeup-").toOption.getD ⟨"", []⟩
    let print := Kind.atRule "media" "print" true
    parse css "a.css" = .ok s ∧ s.enclosing 3 = [print, .rule ".a,.b"] ∧
      Schema.extract css "a.css" "makeup-" = .ok schema ∧
      ∃ text blocks, Fallback.css t schema.usages {} = .ok text ∧ (sheetOf blocks).css = text ∧
        ∀ target ∈ [".makeup\\/context\\/dark .a", ".makeup\\/context\\/dark .b"],
          (sheetOf blocks).Declares [.rule target] "color" ∧
          ¬(sheetOf blocks).Declares [print, .rule target] "color" := by
  intro css t s schema print
  let u := ((Schema.usageAt "makeup-" s 3).toOption.getD none).getD ⟨[], "", "", []⟩
  obtain ⟨hparse, henclosing, hextract, hcss⟩ : parse css "a.css" = .ok s ∧
      s.enclosing 3 = [print, .rule ".a,.b"] ∧
      (Schema.extract css "a.css" "makeup-").isOk = true ∧
      (Fallback.css t schema.usages {}).isOk = true := by decide +kernel
  obtain ⟨hid, hok, hsome, hproperty, htargets⟩ : 3 ∈ s.declarations root ∧
      (Schema.usageAt "makeup-" s 3).isOk = true ∧
      ((Schema.usageAt "makeup-" s 3).toOption.getD none).isSome = true ∧ u.property = "color" ∧
      targets t "makeup/context/" u =
        [".makeup\\/context\\/dark .a", ".makeup\\/context\\/dark .b"] := by
    decide +kernel
  have hextract := eq_ok_of_isOk hextract ⟨"", []⟩
  have hcss := eq_ok_of_isOk hcss ""
  have hu : Schema.usageAt "makeup-" s 3 = .ok (some u) := by
    obtain ⟨v, hv⟩ := Option.isSome_iff_exists.1 hsome
    have huv : u = v := congrArg (fun o => o.getD ⟨[], "", "", []⟩) hv
    rw [eq_ok_of_isOk hok none, huv, hv]
  clear_value u s
  obtain ⟨s', blocks, hparse', -, htext, hall, -⟩ := declares_css {} hextract hcss
  obtain rfl : s = s' := Except.ok.inj (hparse.symm.trans hparse')
  obtain ⟨outer, selector, hchain, -, hdeclares⟩ := hall 3 hid u hu
  obtain rfl : [print] = outer := by
    simpa using congrArg List.dropLast (henclosing.symm.trans hchain)
  refine ⟨hparse, henclosing, hextract, _, blocks, hcss, htext, fun target htarget => ?_⟩
  obtain ⟨hrule, hinside⟩ := hdeclares target (htargets ▸ htarget)
  rw [hproperty] at hrule hinside
  exact ⟨hrule, fun h => List.cons_ne_nil _ _ (hinside.1 h)⟩

/-- A color for print only is a color everywhere in the fallback. -/
theorem css_print_everywhere :
    let css := "@media print \x7b .a \x7b color: var(--makeup-k); \x7d \x7d"
    let t := Theme.empty.insert "k" none (.text "red")
    let s := (parse css "test.css").toOption.getD default
    let schema := (Schema.extract css "test.css" "makeup-").toOption.getD ⟨"", []⟩
    let blocks : List Block := [⟨".a", [("color", "red")]⟩]
    parse css "test.css" = .ok s ∧ s.declarations root = [3] ∧
      s.enclosing 3 = [.atRule "media" "print" true, .rule ".a"] ∧
      schema.usages.map (fun u => (u.selectors, u.property)) = [([".a"], "color")] ∧
      rules t schema.usages "makeup/context/" = .ok blocks ∧
      Fallback.css t schema.usages {} = .ok ".a \x7b\n  color: red;\n\x7d\n" ∧
      (sheetOf blocks).declarations root = [2] ∧ (sheetOf blocks).enclosing 2 = [.rule ".a"] := by
  decide +kernel

end CssTheming.Fallback
