import CssTheming.Proofs.Compile.Settled
import CssTheming.Proofs.Sheet.Authored

/-!
# At-rules with a colon behind their keyword

A colon does not end the name of an at-rule. `@context: dark` has the name `context:`, which is
rejected; `@context:dark` has the name `context:dark`, and is taken for any other at-rule.
-/

namespace CssTheming

namespace Sheet

variable {source path keyword : String} {s : Sheet} {id : Nat} {rest : List Char}

/-- A statement that is written as `@keyword:` with this text behind it. -/
def ColonAt (source keyword : String) (s : Sheet) (id : Nat) (rest : List Char) : Prop :=
  id ∈ s.descendants root ∧ Text.RestAt source.toList (s.location id).position
    ('@' :: keyword.toList ++ ':' :: rest)

/-- The name of an at-rule that is written so, which goes on up to a character that ends names. -/
def colonName (keyword : String) (rest : List Char) : String :=
  keyword ++ ":" ++ String.ofList (rest.takeWhile isNameChar)

theorem colonName_of_startsOff (h : Text.StartsOff isNameChar rest) :
    colonName keyword rest = keyword ++ ":" := by
  cases rest with
  | nil => simp [colonName]
  | cons c r =>
    have hc : isNameChar c = false := h c rfl
    simp [colonName, hc]

theorem colonName_ne : colonName keyword rest ≠ keyword := by
  intro h
  have hlength := congrArg String.length h
  have hcolon : ":".length = 1 := rfl
  simp [colonName] at hlength
  omega

theorem Begins.exists_atRule {r : List Char} {kind : Kind} (h : Begins ('@' :: r) kind) :
    ∃ params hasBlock, kind = .atRule (String.ofList (r.takeWhile isNameChar)) params hasBlock := by
  cases h with
  | atRule => exact ⟨_, _, rfl⟩
  | rule hc => exact absurd rfl hc.2.2.2.1
  | declaration hc => exact absurd rfl hc.2.2.2.1

theorem ColonAt.exists_kind? (hparse : parse source path = .ok s)
    (hname : ∀ c ∈ keyword.toList, isNameChar c = true) (h : ColonAt source keyword s id rest) :
    ∃ params hasBlock, s.kind? id = some (.atRule (colonName keyword rest) params hasBlock) := by
  obtain ⟨hid, hrest⟩ := h
  obtain ⟨hs, -⟩ := linked_showsChildren_of_parse hparse
  obtain ⟨k, hk⟩ := exists_kind?_of_mem_descendants hs hid
  obtain ⟨_, hrest', hbegins⟩ := standsAt_of_parse hparse hid hk
  rw [hrest.unique hrest', List.cons_append] at hbegins
  obtain ⟨params, hasBlock, rfl⟩ := hbegins.exists_atRule
  have hwhole : String.ofList ((keyword.toList ++ ':' :: rest).takeWhile isNameChar) =
      colonName keyword rest := by
    rw [List.takeWhile_append_of_pos hname, List.takeWhile_cons_of_pos (by decide), colonName]
    exact String.toList_injective (by simp)
  exact ⟨params, hasBlock, hwhole ▸ hk⟩

end Sheet

namespace Compile

open Sheet

variable {options : Options} {s s' : Sheet} {id n : Nat} {usages : List Usage}

/-- Rewriting leaves all that is in no component at-rule in its place, and at-rules that are no
contexts as they are. -/
theorem rewrite_keeps (hs : s.Linked) (hshows : s.ShowsChildren)
    (h : rewrite options s = .ok (s', usages, n)) :
    s'.descendants root = (s.descendants root).filter
        (fun id => Outside s (s.atRulesNamed root options.componentKeyword) id) ∧
      ∀ id name params hasBlock, s.kind? id = some (.atRule name params hasBlock) →
        name ≠ options.contextKeyword → s'.kind? id = some (.atRule name params hasBlock) := by
  obtain ⟨t, u, hexpand, hcompose, hrefer⟩ := rewrite_eq_ok h
  obtain ⟨t₀, hpruned, htree, hreworded⟩ := exists_pruned_of_expand hs hexpand
  have ht := htree.linked hpruned.linked
  have hcontexts : ∀ id ∈ t.atRulesNamed root options.contextKeyword, IsContext options t id := by
    intro id hid
    obtain ⟨-, params, hasBlock, hk⟩ := exists_of_mem_atRulesNamed hid
    refine ⟨params, hasBlock, hk, ?_⟩
    rintro rfl
    obtain ⟨k, hk₀⟩ := htree.exists_kind? hk
    rw [hpruned.kind] at hk₀
    obtain ⟨component, k', hk', hstep⟩ := hreworded id k hk₀
    obtain rfl := Option.some.inj (hk.symm.trans hk')
    obtain ⟨params', rfl⟩ := hstep.exists_atRule
    have hleaf : s.children id = [] := by
      refine (hshows id).resolve_left fun hbody => ?_
      cases hbody _ hk₀
    rw [htree.children_eq, hpruned.children, hleaf]
    rfl
  have hcomposed := compose_eq_ok ht hcontexts hcompose
  have hu := hcomposed.sameTree.linked ht
  obtain ⟨-, hreferred⟩ := refer_eq_ok hu hrefer
  have hroot : root ∉ s.atRulesNamed root options.componentKeyword := fun hmem =>
    Nat.lt_irrefl root (hs.lt_of_mem_descendants (List.mem_filter.1 hmem).1)
  refine ⟨?_, fun id name params hasBlock hk hname => ?_⟩
  · rw [hreferred.sameTree.descendants_eq hu, hcomposed.sameTree.descendants_eq ht,
      htree.descendants_eq hpruned.linked, hpruned.descendants_root_eq hs hroot]
  · obtain ⟨component, k', hk', hstep⟩ := hreworded id _ hk
    have hkept : k' = .atRule name params hasBlock := by
      cases hstep with
      | same => rfl
      | params => exact absurd rfl hname
    subst hkept
    have hcontext : id ∉ t.atRulesNamed root options.contextKeyword := by
      rw [mem_atRulesNamed hk']
      exact fun hmem => hname (of_decide_eq_true hmem.2)
    have hk'' := (hcomposed.others id hcontext).trans hk'
    have hdeclaration : id ∉ u.declarations root := by
      intro hmem
      obtain ⟨-, property, value, important, hk'''⟩ := mem_declarations.1 hmem
      rw [hk''] at hk'''
      cases hk'''
    exact (hreferred.others id hdeclaration).trans hk''

/-- Nothing that is rewritten has an at-rule whose name is a keyword and a colon. -/
theorem colon_of_rewrite (hs : s.Linked) (h : rewrite options s = .ok (s', usages, n))
    {keyword : String}
    (hkeyword : keyword = options.componentKeyword ∨ keyword = options.contextKeyword) :
    s'.atRulesNamed root (keyword ++ ":") = [] ∧
      (keyword = options.componentKeyword → s.atRulesNamed root (keyword ++ ":") = []) := by
  obtain ⟨t, u, hexpand, hcompose, hrefer⟩ := rewrite_eq_ok h
  obtain ⟨ht, -, hcomponent, -⟩ := expand_settles hs hexpand
  obtain ⟨hu, -, hcontext, -⟩ := compose_settles ht.linked hcompose
  have hs' := loses_refer hu.linked hrefer
  refine ⟨hs'.atRulesNamed_eq_nil hu.linked ?_, ?_⟩
  · rcases hkeyword with rfl | rfl
    · exact hu.atRulesNamed_eq_nil ht.linked hcomponent
    · exact hcontext
  · rintro rfl
    exact colon_of_expand hexpand

/-- A source with a keyword and a colon is rejected where no character that belongs to names comes
behind the colon, unless it is a context in the block of a component. Of what is written so in a
source that is compiled, that which is in no component at-rule is still there. -/
theorem compile_colon {source path : String} (hparse : Sheet.parse source path = .ok s)
    {keyword : String}
    (hkeyword : keyword = options.componentKeyword ∨ keyword = options.contextKeyword)
    (hname : ∀ c ∈ keyword.toList, isNameChar c = true) :
    let components := s.atRulesNamed root options.componentKeyword
    (∀ id rest, ColonAt source keyword s id rest → Text.StartsOff isNameChar rest →
      (keyword = options.componentKeyword ∨ Outside s components id) →
        ∃ e, compile source path options = .error e) ∧
      ∀ compiled, compile source path options = .ok compiled →
        ∃ s' : Sheet, compiled.css = s'.css ∧ s'.atRulesNamed root (keyword ++ ":") = [] ∧
          ∀ id rest, ColonAt source keyword s id rest →
            colonName keyword rest ≠ options.contextKeyword →
              (id ∈ s'.descendants root ↔ Outside s components id) ∧
                ∃ params hasBlock, s.kind? id = s'.kind? id ∧
                  s'.kind? id = some (.atRule (colonName keyword rest) params hasBlock) := by
  intro components
  obtain ⟨hs, hshows⟩ := linked_showsChildren_of_parse hparse
  have hkept : ∀ {s' usages n id rest}, rewrite options s = .ok (s', usages, n) →
      ColonAt source keyword s id rest → colonName keyword rest ≠ options.contextKeyword →
        (id ∈ s'.descendants root ↔ Outside s components id) ∧
          ∃ params hasBlock, s.kind? id = s'.kind? id ∧
            s'.kind? id = some (.atRule (colonName keyword rest) params hasBlock) := by
    intro s' usages n id rest hrewrite hat hne
    obtain ⟨params, hasBlock, hk⟩ := hat.exists_kind? hparse hname
    obtain ⟨hleft, hrules⟩ := rewrite_keeps hs hshows hrewrite
    have hk' := hrules id _ params hasBlock hk hne
    refine ⟨?_, params, hasBlock, hk.trans hk'.symm, hk'⟩
    rw [hleft, List.mem_filter, decide_eq_true_iff, and_iff_right hat.1]
  refine ⟨fun id rest hat hrest hplace => ?_, fun compiled hcompile => ?_⟩
  · cases hcompile : compile source path options with
    | error e => exact ⟨e, rfl⟩
    | ok compiled =>
      obtain ⟨s', n, hrewrite, -⟩ := compile_eq_ok hparse hcompile
      obtain ⟨hnone', hnone⟩ := colon_of_rewrite hs hrewrite hkeyword
      exfalso
      by_cases hcomponent : keyword = options.componentKeyword
      · obtain ⟨params, hasBlock, hk⟩ := hat.exists_kind? hparse hname
        rw [colonName_of_startsOff hrest] at hk
        have hmem := (mem_atRulesNamed hk).2 ⟨hat.1, decide_eq_true rfl⟩
        rw [hnone hcomponent] at hmem
        cases hmem
      · -- A context is only looked for once the components are gone.
        have hne : colonName keyword rest ≠ options.contextKeyword :=
          hkeyword.resolve_left hcomponent ▸ colonName_ne
        obtain ⟨hplaces, params, hasBlock, -, hk⟩ := hkept hrewrite hat hne
        rw [colonName_of_startsOff hrest] at hk
        have hmem := (mem_atRulesNamed hk).2
          ⟨hplaces.2 (hplace.resolve_left hcomponent), decide_eq_true rfl⟩
        rw [hnone'] at hmem
        cases hmem
  · obtain ⟨s', n, hrewrite, hcss⟩ := compile_eq_ok hparse hcompile
    exact ⟨s', hcss, (colon_of_rewrite hs hrewrite hkeyword).1,
      fun id rest hat hne => hkept hrewrite hat hne⟩

/-- A context with white space behind the colon, and one with a name there, in the two stylesheets
that are read below. -/
theorem parse_colons :
    let source := "@media x\x7b.a\x7b@context: dark\x7d\x7d"
    let s := (Sheet.parse source "a.css").toOption.getD default
    let source' := ".a \x7b @context:dark; \x7d"
    let s' := (Sheet.parse source' "test.css").toOption.getD default
    (Sheet.parse source "a.css" = .ok s ∧ 3 ∈ s.descendants root ∧
        (s.location 3).position = .after .start "@media x\x7b.a\x7b".toList ∧
        Outside s (s.atRulesNamed root "component") 3) ∧
      Sheet.parse source' "test.css" = .ok s' ∧ 2 ∈ s'.descendants root ∧
        (s'.location 2).position = .after .start ".a \x7b ".toList ∧
        Outside s' (s'.atRulesNamed root "component") 2 ∧
        s'.kind? 2 = some (.atRule "context:dark" "" false) ∧
        compile source' "test.css" {} =
          .ok ⟨"test.css", ".a \x7b\n  @context:dark;\n\x7d\n", []⟩ := by
  decide +kernel

/-- The first is rejected; the second is printed as it stands, and belongs to no component. -/
theorem compile_colon_nested :
    let source := "@media x\x7b.a\x7b@context: dark\x7d\x7d"
    let source' := ".a \x7b @context:dark; \x7d"
    (∃ e, compile source "a.css" {} = .error e) ∧
      ∃ s' : Sheet, compile source' "test.css" {} = .ok ⟨"test.css", s'.css, []⟩ ∧
        2 ∈ s'.descendants root ∧ s'.kind? 2 = some (.atRule "context:dark" "" false) := by
  intro source source'
  obtain ⟨⟨hparse, hmem, hplace, hrules⟩, hparse', hmem', hplace', hrules', hkind, hcompile⟩ :=
    parse_colons
  have hname : ∀ c ∈ ({} : Options).contextKeyword.toList, isNameChar c = true :=
    List.all_eq_true.1 (by decide)
  have hat : ColonAt source "context" _ 3 " dark\x7d\x7d".toList :=
    ⟨hmem, "@media x\x7b.a\x7b".toList, by decide, hplace⟩
  have hat' : ColonAt source' "context" _ 2 "dark; \x7d".toList :=
    ⟨hmem', ".a \x7b ".toList, by decide, hplace'⟩
  refine ⟨(compile_colon hparse (.inr rfl) hname).1 3 _ hat ?_ (.inr hrules), ?_⟩
  · rintro c ⟨⟩
    decide
  · obtain ⟨t, hcss, -, hstays⟩ := (compile_colon hparse' (.inr rfl) hname).2 _ hcompile
    obtain ⟨hplaces, params, hasBlock, hsame, -⟩ := hstays 2 _ hat' (by decide)
    refine ⟨t, ?_, hplaces.2 hrules', hsame.symm.trans hkind⟩
    rw [hcompile, ← hcss]

/-- A context without white space behind the colon is neither composed nor rejected. -/
theorem compile_colon_joined :
    let source := ".a \x7b @context:dark; \x7d"
    let s := (Sheet.parse source "test.css").toOption.getD default
    Sheet.parse source "test.css" = .ok s ∧ ColonAt source "context" s 2 "dark; \x7d".toList ∧
      s.kind? 2 = some (.atRule "context:dark" "" false) ∧
      compile source "test.css" {} =
        .ok ⟨"test.css", ".a \x7b\n  @context:dark;\n\x7d\n", []⟩ := by
  obtain ⟨-, hparse, hmem, hplace, -, hkind, hcompile⟩ := parse_colons
  exact ⟨hparse, ⟨hmem, ".a \x7b ".toList, by decide, hplace⟩, hkind, hcompile⟩

end Compile

end CssTheming
