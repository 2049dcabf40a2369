import CssTheming.Proofs.Compile.Basic
import CssTheming.Proofs.Sheet.Placement

/-!
# Compiled stylesheets read again

A context at-rule becomes a declaration wherever it stands. At the top of a stylesheet that is where
no declaration can be read, and apart from that a compiled stylesheet is read again if its texts
stand for themselves.
-/

namespace CssTheming.Compile

open Sheet

variable {options : Options} {s u s' : Sheet} {id c n : Nat} {k k' : Kind} {usages : List Usage}

theorem Prepares.isDeclaration_eq {scope : List String} (h : Prepares options scope k k') :
    k'.isDeclaration = (k.isDeclaration || k.isAtRuleNamed options.contextKeyword) := by
  cases h with
  | kept => rfl
  | expanded => rfl
  | composed => exact (decide_eq_true rfl).symm
  | other hdeclaration hname => rw [hname, Bool.or_false]

/-- What shows what is inside it is not edited. -/
theorem Prepares.eq_of_showsBody {scope : List String} (h : Prepares options scope k k')
    (hshows : k.showsBody = true) : k' = k := by
  cases h with
  | other => rfl
  | _ => cases hshows

theorem Prepared.mem_children_iff (h : Prepared options s u) (hs : s.Linked)
    (hid : id = root ∨ id ∈ u.descendants root) :
    c ∈ u.children id ↔ c ∈ s.children id ∧ c ∉ s.atRulesNamed root options.componentKeyword := by
  constructor
  · intro hc
    have hparent := (h.linked.below hc).2
    have hroot := h.linked.mem_descendants_parent.2 ⟨id, hparent, hid⟩
    rw [h.parent c hroot] at hparent
    exact ⟨hs.above hparent, (h.mem_descendants_iff.1 hroot).2⟩
  · rintro ⟨hc, hstays⟩
    have hparent := (hs.below hc).2
    have hbelow : c ∈ s.descendants root :=
      hs.mem_descendants_parent.2 ⟨id, hparent, hid.imp_right fun h' => (h.mem_descendants_iff.1 h').1⟩
    rw [← h.parent c (h.mem_descendants_iff.2 ⟨hbelow, hstays⟩)] at hparent
    exact h.linked.above hparent

/-- Making references leaves declarations what they are and all else as it is. -/
theorem kind?_refer (hu : u.Linked) (hrefer : refer options u = (s', .ok usages))
    (hid : id ∈ u.descendants root) (hk : u.kind? id = some k) :
    ∃ k', s'.kind? id = some k' ∧ k'.isDeclaration = k.isDeclaration ∧
      (k.isDeclaration = false → k' = k) := by
  obtain ⟨-, hedited⟩ := refer_eq_ok hu hrefer
  cases hdeclaration : k.isDeclaration with
  | true =>
    have hmem : id ∈ u.declarations root := List.mem_filter.2 ⟨hid, by rw [hk]; exact hdeclaration⟩
    obtain ⟨k', hk', hrefers⟩ := hedited.each id hmem k hk
    exact ⟨k', hk', hrefers.isDeclaration, nofun⟩
  | false =>
    have hmem : id ∉ u.declarations root := by
      intro hmem
      have hany := (List.mem_filter.1 hmem).2
      rw [hk, Option.any_some, hdeclaration] at hany
      cases hany
    exact ⟨k, (hedited.others id hmem).trans hk, hdeclaration, fun _ => rfl⟩

/-- A rewritten stylesheet has a declaration for each of those in its source and for each context
at-rule, and shows what its source shows. -/
theorem Prepared.kind?_rewritten (h : Prepared options s u)
    (hrefer : refer options u = (s', .ok usages)) (hid : id ∈ u.descendants root)
    (hk : s.kind? id = some k) :
    ∃ k', s'.kind? id = some k' ∧
      k'.isDeclaration = (k.isDeclaration || k.isAtRuleNamed options.contextKeyword) ∧
      (k.showsBody = true → k' = k) := by
  obtain ⟨k₁, hk₁, hprepares⟩ := h.node id hid k hk
  obtain ⟨k₂, hk₂, hdeclaration, hother⟩ := kind?_refer h.linked hrefer hid hk₁
  refine ⟨k₂, hk₂, hdeclaration.trans hprepares.isDeclaration_eq, fun hshows => ?_⟩
  obtain rfl := hprepares.eq_of_showsBody hshows
  apply hother
  cases k₁ with
  | declaration => cases hshows
  | _ => rfl

/-- A parsed stylesheet is rewritten by way of a prepared one. -/
theorem exists_prepared {source path : String} (hparse : Sheet.parse source path = .ok s)
    (hblock : ∀ id ∈ s.atRulesNamed root options.componentKeyword, ∃ params,
      s.kind? id = some (.atRule options.componentKeyword params false))
    (hrewrite : rewrite options s = .ok (s', usages, n)) :
    ∃ u, Prepared options s u ∧ refer options u = (s', .ok usages) := by
  obtain ⟨hs, hshows⟩ := linked_showsChildren_of_parse hparse
  have hleaf : ∀ {id k}, s.kind? id = some k → k.showsBody = false → s.children id = [] := by
    intro id k hk hbody
    refine (hshows id).resolve_left fun h => ?_
    rw [h k hk] at hbody
    cases hbody
  obtain ⟨t, u, hexpand, hcompose, hrefer⟩ := rewrite_eq_ok hrewrite
  refine ⟨u, prepared hs (fun id hid => ?_) (fun id params hk => hleaf hk rfl) hexpand hcompose, hrefer⟩
  obtain ⟨params, hk⟩ := hblock id hid
  exact hleaf hk rfl

section Rewritten

variable (hprepared : Prepared options s u) (hrefer : refer options u = (s', .ok usages))
include hprepared hrefer

theorem mem_children_rewritten (hs : s.Linked) (hid : id = root ∨ id ∈ u.descendants root) :
    c ∈ s'.children id ↔ c ∈ s.children id ∧ c ∉ s.atRulesNamed root options.componentKeyword := by
  rw [(refer_eq_ok hprepared.linked hrefer).2.sameTree.children_eq,
    hprepared.mem_children_iff hs hid]

/-- What is below a node is shown after rewriting if it was before. -/
theorem nodePrintable_rewritten (hs : s.Linked) (hshows : s.ShowsChildren)
    (hid : id ∈ u.descendants root) (htexts : ∀ k, s'.kind? id = some k → k.Printable true) :
    s'.NodePrintable id := by
  obtain ⟨k, hk⟩ := exists_kind?_of_mem_descendants hs (hprepared.mem_descendants_iff.1 hid).1
  obtain ⟨k', hk', -, hkept⟩ := hprepared.kind?_rewritten hrefer hid hk
  refine ⟨htexts, (hshows id).imp (fun hbody k'' hk'' => ?_) fun hleaf => ?_⟩
  · obtain rfl := Option.some.inj (hk'.symm.trans hk'')
    rw [hkept (hbody k hk)]
    exact hbody k hk
  · rw [List.eq_nil_iff_forall_not_mem]
    intro c hc
    have hchild := ((mem_children_rewritten hprepared hrefer hs (.inr hid)).1 hc).1
    rw [hleaf] at hchild
    cases hchild

/-- What is at the top of a source is no declaration, so a declaration in its place was a context
at-rule. -/
theorem isDeclaration_rewritten_iff {source path : String}
    (hparse : Sheet.parse source path = .ok s) (hs : s.Linked) (hc : c ∈ s'.children root)
    (hk' : s'.kind? c = some k') :
    k'.isDeclaration = false ↔ c ∉ s.atRulesNamed root options.contextKeyword := by
  obtain ⟨hsource, hstays⟩ := (mem_children_rewritten hprepared hrefer hs (.inl rfl)).1 hc
  have hbelow : c ∈ s.descendants root := hs.mem_descendants_iff.2 ⟨c, hsource, .inl rfl⟩
  obtain ⟨k, hk⟩ := exists_kind?_of_mem_descendants hs hbelow
  obtain ⟨k'', hk'', hdeclaration, -⟩ :=
    hprepared.kind?_rewritten hrefer (hprepared.mem_descendants_iff.2 ⟨hbelow, hstays⟩) hk
  obtain rfl := Option.some.inj (hk''.symm.trans hk')
  rw [hdeclaration, isDeclaration_of_parse hparse hsource hk, Bool.false_or, mem_atRulesNamed hk,
    not_and, Bool.not_eq_true]
  exact ⟨fun h _ => h, fun h => h hbelow⟩

end Rewritten

/-- If all texts in a compiled stylesheet stand for themselves, it is read again if and only if no
context at-rule is at the top of its source. -/
theorem exists_parse_compile_iff {source path : String} {compiled : Compiled}
    (hparse : Sheet.parse source path = .ok s)
    (hcompile : compile source path options = .ok compiled)
    (hrewrite : rewrite options s = .ok (s', usages, n))
    (hblock : ∀ id ∈ s.atRulesNamed root options.componentKeyword, ∃ params,
      s.kind? id = some (.atRule options.componentKeyword params false))
    (hkeywords : options.componentKeyword ≠ options.contextKeyword)
    (htexts : ∀ id ∈ s'.descendants root, ∀ k, s'.kind? id = some k → k.Printable true)
    (path' : String) :
    (∃ again, Sheet.parse compiled.css path' = .ok again) ↔
      ∀ id ∈ s.children root, id ∉ s.atRulesNamed root options.contextKeyword := by
  obtain ⟨hs, hshows⟩ := linked_showsChildren_of_parse hparse
  obtain ⟨u, hprepared, hrefer⟩ := exists_prepared hparse hblock hrewrite
  obtain ⟨-, hedited⟩ := refer_eq_ok hprepared.linked hrefer
  have hcss : compiled.css = s'.css := by
    obtain ⟨_, _, hrewrite', hcss⟩ := compile_eq_ok hparse hcompile
    cases hrewrite.symm.trans hrewrite'
    exact hcss
  have hprintable : ∀ id ∈ s'.descendants root, s'.NodePrintable id := by
    intro id hid
    refine nodePrintable_rewritten hprepared hrefer hs hshows ?_ (htexts id hid)
    rwa [hedited.sameTree.descendants_eq hprepared.linked] at hid
  rw [hcss, (hedited.sameTree.linked hprepared.linked).exists_parse_css_iff hprintable]
  have hchildren : ∀ {c}, c ∈ s'.children root ↔ c ∈ s.children root ∧
      c ∉ s.atRulesNamed root options.componentKeyword :=
    mem_children_rewritten hprepared hrefer hs (.inl rfl)
  have hiff : ∀ {c k}, c ∈ s'.children root → s'.kind? c = some k →
      (k.isDeclaration = false ↔ c ∉ s.atRulesNamed root options.contextKeyword) :=
    isDeclaration_rewritten_iff hprepared hrefer hparse hs
  constructor
  · intro hnone c hc hcontext
    obtain ⟨hbelow, params, _, hk⟩ := exists_of_mem_atRulesNamed hcontext
    have hstays : c ∉ s.atRulesNamed root options.componentKeyword := fun hcomponent =>
      hkeywords (of_decide_eq_true ((mem_atRulesNamed hk).1 hcomponent).2).symm
    have hmem := hchildren.2 ⟨hc, hstays⟩
    obtain ⟨k', hk', -⟩ :=
      hprepared.kind?_rewritten hrefer (hprepared.mem_descendants_iff.2 ⟨hbelow, hstays⟩) hk
    exact (hiff hmem hk').1 (hnone c hmem k' hk') hcontext
  · exact fun hnone c hc k hk => (hiff hc hk).2 (hnone c (hchildren.1 hc).1)

/-- A component, a context in a rule and one in an at-rule, and a brace in a string. -/
theorem exists_parse_compile_iff_nested :
    let source := "a\x7b@component x;@context;color:f(cfg(k) '\x7d\\\\')\x7d" ++
      "@media print\x7b@context /dark\x7d"
    let s := (Sheet.parse source "a.css").toOption.getD default
    let rewritten := (rewrite {} s).toOption.getD default
    let compiled := (compile source "a.css" {}).toOption.getD ⟨"", "", []⟩
    Sheet.parse source "a.css" = .ok s ∧ rewrite {} s = .ok rewritten ∧
      compile source "a.css" {} = .ok compiled ∧
      s.atRulesNamed root "component" = [2] ∧ s.atRulesNamed root "context" = [3, 6] ∧
      s.children root = [1, 5] ∧ ∃ again, Sheet.parse compiled.css "b.css" = .ok again := by
  intro source s rewritten compiled
  obtain ⟨hparse, hrewrite, hcompile⟩ : Sheet.parse source "a.css" = .ok s ∧
      rewrite {} s = .ok rewritten ∧ compile source "a.css" {} = .ok compiled := by decide +kernel
  obtain ⟨hcomponents, hk, hcontexts, hchildren⟩ : s.atRulesNamed root "component" = [2] ∧
      s.kind? 2 = some (.atRule "component" "x" false) ∧
      s.atRulesNamed root "context" = [3, 6] ∧ s.children root = [1, 5] := by decide +kernel
  have hprintable : ∀ id ∈ rewritten.1.descendants root,
      (rewritten.1.kind? id).all (fun k => decide (k.Printable true)) = true := by decide +kernel
  refine ⟨hparse, hrewrite, hcompile, hcomponents, hcontexts, hchildren, ?_⟩
  refine (exists_parse_compile_iff hparse hcompile hrewrite ?_ (by decide) ?_ "b.css").2 ?_
  · rw [hcomponents]
    exact List.forall_mem_singleton.2 ⟨_, hk⟩
  · intro id hid k hk
    have hall := hprintable id hid
    rw [show rewritten.1.kind? id = some k from hk] at hall
    exact of_decide_eq_true hall
  · rw [hcontexts, hchildren]
    decide

/-- A context at-rule at the top is compiled to what is not read again. -/
theorem parse_compile_context :
    compile "@context dark;" "a.css" {} =
        .ok ⟨"a.css", "composes: makeup/context/dark from global;\n", []⟩ ∧
      Sheet.parse "composes: makeup/context/dark from global;\n" "a.css" =
        .error (.sheet "a.css" 1
          (.selectorWithoutBlock "composes: makeup/context/dark from global")) := by
  decide +kernel

end CssTheming.Compile
