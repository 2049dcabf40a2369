import CssTheming.Compile.Basic
import CssTheming.Proofs.Compile.Prepared
import CssTheming.Proofs.Compile.Reference
import CssTheming.Proofs.Sheet.Parsed

/-!
# Keys of compiled stylesheets

A compiled stylesheet refers to the keys that its source names, each resolved in the scope of the
node that names it.
-/

namespace CssTheming.Compile

open Value Sheet

variable {options : Options} {s u s' : Sheet} {id n : Nat} {usages : List Usage}

/-- The config calls of a declaration, each with the selectors and the property that it stands under
and its key. -/
def callsAt (options : Options) (s : Sheet) (id : Nat) : List (List String × String × String) :=
  match s.kind? id with
  | some (.declaration property value _) =>
    (allCallsOf options.configKeyword (parse value)).map fun n =>
      ((s.parent? id).elim [] s.selectors, property,
        Key.resolve (scopeAt options.componentKeyword s id) (calledKey property n))
  | _ => []

/-- What a usage says of the call it stands for. -/
def usedCall (usage : Usage) : List String × String × String :=
  (usage.selectors, usage.property, usage.key)

theorem callsOf_eq_nil {value : String} (h : Text.contains value (callMarker options) = false) :
    callsOf options.configKeyword (parse value) = [] := by
  by_contra hne
  exact absurd (contains_of_callsOf hne) (by rw [← callMarker, h]; decide)

/-- A declaration adds a usage for each of its calls. -/
theorem Refers.map_usedCall {new : List Usage} {property value : String} {important : Bool}
    {k : Kind}
    (h : Refers options u id new (.declaration property value important) k) :
    new.map usedCall =
      ((callsOf options.configKeyword (parse value)).map (referredKey property)).map
        (fun key => ((u.parent? id).elim [] u.selectors, property, key)) ∧
      ∀ n ∈ callsOf options.configKeyword (parse value), Accepted property n := by
  rcases h with ⟨hcontains, -, rfl⟩ | ⟨-, rule, value', keys, hrule, hvalue, -, rfl⟩
  · rw [callsOf_eq_nil hcontains]
    simp
  · obtain ⟨-, rfl, haccepted⟩ := referValue_eq_ok hvalue
    have hparent : u.parent? id = some rule := (Option.filter_eq_some_iff.1 hrule).1
    rw [hparent, List.map_map]
    exact ⟨rfl, haccepted⟩

/-- The usages of a node that is left are the calls that it had. -/
theorem Prepared.map_usedCall (h : Prepared options s u) (hs : s.Linked)
    (hclass : Text.contains options.contextClassPrefix (callMarker options) = false)
    (hid : id ∈ u.descendants root)
    {k k' k'' : Kind} (hk : s.kind? id = some k) (hk' : u.kind? id = some k')
    (hrefers : Refers options u id (usagesAt options u id) k' k'') :
    (usagesAt options u id).map usedCall = callsAt options s id := by
  obtain ⟨_, heq, hprepares⟩ := h.node id hid k hk
  obtain rfl := Option.some.inj (hk'.symm.trans heq)
  cases hprepares with
  | kept hscope =>
    rename_i property value important
    obtain ⟨husages, haccepted⟩ := hrefers.map_usedCall
    rw [husages, callsAt, hk, h.selectors_eq hs hid]
    dsimp only
    rw [allCallsOf_eq _ fun n hn => (haccepted n hn).allCallsOf_args _, List.map_map]
    apply List.map_congr_left
    intro n hn
    rw [hscope (contains_of_callsOf (List.ne_nil_of_mem hn)), Key.resolve_nil (haccepted n hn).valid]
    rfl
  | expanded hvalue =>
    obtain ⟨husages, -⟩ := hrefers.map_usedCall
    obtain ⟨hkeys, hargs⟩ := referredKeys_expandValue (h.scope id hid) hvalue
    rw [husages, callsAt, hk, h.selectors_eq hs hid, hkeys]
    dsimp only
    rw [allCallsOf_eq _ hargs, List.map_map]
    rfl
  | composed hkey =>
    have hresolved := Key.isResolved_resolve (h.scope id hid) hkey
    have hcontains := contains_composition hresolved hclass
    rw [← Key.unrooted_of_isResolved hresolved] at hcontains
    rcases hrefers with ⟨-, -, hnew⟩ | ⟨hcall, -⟩
    · rw [hnew, callsAt, hk]
      rfl
    · rw [hcontains] at hcall
      cases hcall
  | other hdeclaration =>
    cases k with
    | declaration property value important => cases hdeclaration
    | _ => exact hrefers.elim

theorem callsAt_eq_nil {k : Kind} (hk : s.kind? id = some k) (h : k.isDeclaration = false) :
    callsAt options s id = [] := by
  rw [callsAt, hk]
  cases k with
  | declaration property value important => cases h
  | _ => rfl

/-- The usages of a prepared stylesheet are the calls of the declarations in its source. -/
theorem Prepared.usages_eq (h : Prepared options s u) (hs : s.Linked)
    (hclass : Text.contains options.contextClassPrefix (callMarker options) = false)
    (hrefer : refer options u = (s', .ok usages)) :
    usages.map usedCall = (s.declarations root).flatMap (callsAt options s) := by
  obtain ⟨rfl, hedited⟩ := refer_eq_ok h.linked hrefer
  have hsource : (s.declarations root).flatMap (callsAt options s) =
      (s.descendants root).flatMap (callsAt options s) := by
    refine flatMap_filter_of (fun _ _ _ => rfl) fun id hid hother => ?_
    obtain ⟨k, hk⟩ := exists_kind?_of_mem_descendants hs hid
    rw [hk] at hother
    exact callsAt_eq_nil hk hother
  rw [hsource, List.map_flatMap, declarations, h.descendants, List.filter_filter]
  apply flatMap_filter_of
  · intro id hid hkept
    obtain ⟨hdeclaration, hstays⟩ := (Bool.and_eq_true _ _).mp hkept
    have hroot : id ∈ u.descendants root := h.mem_descendants_iff.2 ⟨hid, of_decide_eq_true hstays⟩
    obtain ⟨k, hk⟩ := exists_kind?_of_mem_descendants hs hid
    obtain ⟨k', hk', -⟩ := h.node id hroot k hk
    obtain ⟨k'', -, hrefers⟩ := hedited.each id (List.mem_filter.2 ⟨hroot, hdeclaration⟩) k' hk'
    exact h.map_usedCall hs hclass hroot hk hk' hrefers
  · intro id hid hdropped
    obtain ⟨k, hk⟩ := exists_kind?_of_mem_descendants hs hid
    apply callsAt_eq_nil hk
    by_cases hcomponent : id ∈ s.atRulesNamed root options.componentKeyword
    · obtain ⟨-, params, hasBlock, hcomponent⟩ := exists_of_mem_atRulesNamed hcomponent
      obtain rfl := Option.some.inj (hk.symm.trans hcomponent)
      rfl
    · obtain ⟨k', hk', hprepares⟩ := h.node id (h.mem_descendants_iff.2 ⟨hid, hcomponent⟩) k hk
      apply hprepares.isDeclaration
      simpa [hk', hcomponent] using hdropped

/-- A composition is none of the declarations that get a reference. -/
theorem Prepared.kind?_composition (h : Prepared options s u)
    (hclass : Text.contains options.contextClassPrefix (callMarker options) = false)
    (hrefer : refer options u = (s', .ok usages)) (hid : id ∈ u.descendants root) {params : String}
    {hasBlock : Bool}
    (hk : s.kind? id = some (.atRule options.contextKeyword params hasBlock)) :
    hasBlock = false ∧ s'.kind? id = some (.declaration "composes" (options.contextClassPrefix ++
      Key.resolve (scopeAt options.componentKeyword s id)
        (contextKey params) ++ " from global") false) := by
  obtain ⟨k', hk', hprepares⟩ := h.node id hid _ hk
  cases hprepares with
  | composed hkey =>
    have hresolved := Key.isResolved_resolve (h.scope id hid) hkey
    have hcontains := contains_composition hresolved hclass
    rw [composition, Key.unrooted_of_isResolved hresolved] at hk'
    obtain ⟨-, hedited⟩ := refer_eq_ok h.linked hrefer
    have hmem : id ∈ u.declarations root := List.mem_filter.2 ⟨hid, by rw [hk']; rfl⟩
    obtain ⟨k'', hk'', hrefers⟩ := hedited.each id hmem _ hk'
    rcases hrefers with ⟨-, rfl, -⟩ | ⟨hcall, -⟩
    · exact ⟨rfl, hk''⟩
    · rw [hcontains] at hcall
      cases hcall
  | other _ hname =>
    exact absurd (decide_eq_true rfl) (by rw [show decide _ = false from hname]; decide)

theorem rewrite_eq_ok (h : rewrite options s = .ok (s', usages, n)) :
    ∃ t u, expand options s = (t, .ok ()) ∧ compose options t = (u, .ok n) ∧
      refer options u = (s', .ok usages) := by
  rw [rewrite] at h
  obtain ⟨_, hexpand, h⟩ := bind_eq_ok.1 h
  obtain ⟨_, hcompose, h⟩ := bind_eq_ok.1 h
  obtain ⟨_, hrefer, h⟩ := bind_eq_ok.1 h
  cases h
  exact ⟨_, _, Prod.ext rfl hexpand, Prod.ext rfl hcompose, Prod.ext rfl hrefer⟩

theorem compile_eq_ok {source path : String} {compiled : Compiled}
    (hparse : Sheet.parse source path = .ok s)
    (h : compile source path options = .ok compiled) :
    ∃ s' n, rewrite options s = .ok (s', compiled.usages, n) ∧ compiled.css = s'.css := by
  obtain ⟨⟨_, stats⟩, hstats, rfl⟩ := map_eq_ok.1 h
  obtain ⟨parsed, hparsed, hstats⟩ := bind_eq_ok.1 hstats
  obtain rfl : s = parsed := Except.ok.inj (hparse.symm.trans hparsed)
  obtain ⟨⟨s', usages, n⟩, hrewrite, hstats⟩ := bind_eq_ok.1 hstats
  cases hstats
  exact ⟨s', n, hrewrite, rfl⟩

/-- The usages of a compiled stylesheet are the calls in its source, in the order of the document
and each with its key resolved, and each context at-rule adds the class of its resolved key. -/
theorem keys_compile {source path : String} {compiled : Compiled}
    (hparse : Sheet.parse source path = .ok s)
    (hcompile : compile source path options = .ok compiled)
    (hblock : ∀ id ∈ s.atRulesNamed root options.componentKeyword, ∃ params,
      s.kind? id = some (.atRule options.componentKeyword params false))
    (hkeywords : options.componentKeyword ≠ options.contextKeyword)
    (hclass : Text.contains options.contextClassPrefix (callMarker options) = false) :
    compiled.usages.map usedCall = (s.declarations root).flatMap (callsAt options s) ∧
      ∃ s' : Sheet, compiled.css = s'.css ∧
        s'.descendants root = (s.descendants root).filter
          (· ∉ s.atRulesNamed root options.componentKeyword) ∧
        (∀ id ∈ s'.descendants root, s'.parent? id = s.parent? id) ∧
        ∀ id ∈ s.atRulesNamed root options.contextKeyword, ∃ params,
          s.kind? id = some (.atRule options.contextKeyword params false) ∧
            s'.kind? id = some (.declaration "composes" (options.contextClassPrefix ++
              Key.resolve (scopeAt options.componentKeyword s id)
                (contextKey params) ++ " from global") false) := by
  obtain ⟨hs, hshows⟩ := linked_showsChildren_of_parse hparse
  have hleaf : ∀ {id k}, s.kind? id = some k → k.showsBody = false → s.children id = [] := by
    intro id k hk hbody
    refine (hshows id).resolve_left fun h => ?_
    rw [h k hk] at hbody
    cases hbody
  have hcomponent : ∀ id ∈ s.atRulesNamed root options.componentKeyword, s.children id = [] := by
    intro id hid
    obtain ⟨params, hk⟩ := hblock id hid
    exact hleaf hk rfl
  obtain ⟨s', n, hrewrite, hcss⟩ := compile_eq_ok hparse hcompile
  obtain ⟨t, u, hexpand, hcompose, hrefer⟩ := rewrite_eq_ok hrewrite
  have hprepared := prepared hs hcomponent (fun id params hk => hleaf hk rfl) hexpand hcompose
  obtain ⟨-, hedited⟩ := refer_eq_ok hprepared.linked hrefer
  have hbelow : s'.descendants root = u.descendants root :=
    hedited.sameTree.descendants_eq hprepared.linked root
  refine ⟨hprepared.usages_eq hs hclass hrefer, s', hcss,
    hbelow.trans hprepared.descendants, ?_, ?_⟩
  · intro id hid
    rw [hedited.sameTree.parent?_eq, hprepared.parent id (hbelow ▸ hid)]
  · intro id hid
    obtain ⟨hroot, params, hasBlock, hk⟩ := exists_of_mem_atRulesNamed hid
    have hstays : id ∉ s.atRulesNamed root options.componentKeyword := by
      intro hmem
      exact hkeywords (of_decide_eq_true ((mem_atRulesNamed hk).1 hmem).2).symm
    obtain ⟨rfl, hkind⟩ :=
      hprepared.kind?_composition hclass hrefer (hprepared.mem_descendants_iff.2 ⟨hroot, hstays⟩) hk
    exact ⟨params, hk, hkind⟩

/-- Components in each other, one of them rooted, calls inside of another function and an empty
one. -/
theorem keys_compile_nested :
    let source := "a\x7b@component x;b\x7b@component y;color:f(cfg(k) cfg());" ++
      "c\x7b@component /z;@context;top:cfg(k) cfg('/k')\x7d\x7d\x7d"
    let s := (Sheet.parse source "a.css").toOption.getD default
    let calls := [(["b"], "color", "x.y.k"), (["b"], "color", "x.y.color"), (["c"], "top", "z.k"),
      (["c"], "top", "k")]
    Sheet.parse source "a.css" = .ok s ∧ (s.declarations root).flatMap (callsAt {} s) = calls ∧
      ∃ compiled : Compiled, ∃ s' : Sheet, compile source "a.css" {} = .ok compiled ∧
        compiled.usages.map usedCall = calls ∧
        compiled.css = s'.css ∧
        s'.kind? 8 = some
          (.declaration "composes" "makeup/context/z.context from global" false) := by
  intro source s calls
  obtain ⟨hparse, hcalls, hcompile, hmem, hparams, hkey⟩ : Sheet.parse source "a.css" = .ok s ∧
      (s.declarations root).flatMap (callsAt {} s) = calls ∧
      compile source "a.css" {} = .ok ((compile source "a.css" {}).toOption.getD ⟨"", "", []⟩) ∧
      8 ∈ s.atRulesNamed root "context" ∧ s.kind? 8 = some (.atRule "context" "" false) ∧
      Key.resolve (scopeAt "component" s 8) (contextKey "") = "z.context" := by decide +kernel
  obtain ⟨hids, hx, hy, hz⟩ : s.atRulesNamed root "component" = [2, 4, 7] ∧
      s.kind? 2 = some (.atRule "component" "x" false) ∧
        s.kind? 4 = some (.atRule "component" "y" false) ∧
      s.kind? 7 = some (.atRule "component" "/z" false) := by decide +kernel
  have hblock : ∀ id ∈ s.atRulesNamed root "component", ∃ params,
      s.kind? id = some (.atRule "component" params false) := by
    rw [hids]
    exact List.forall_mem_cons.2 ⟨⟨_, hx⟩,
      List.forall_mem_cons.2 ⟨⟨_, hy⟩, List.forall_mem_singleton.2 ⟨_, hz⟩⟩⟩
  obtain ⟨husages, s', hcss, -, -, hcontext⟩ :=
    keys_compile hparse hcompile hblock (by decide) (by decide +kernel)
  obtain ⟨params, hk, hkind⟩ := hcontext 8 hmem
  obtain rfl : params = "" := by
    rw [hparams] at hk
    cases hk
    rfl
  rw [hkey] at hkind
  exact ⟨hparse, hcalls, _, s', hcompile, husages.trans hcalls, hcss, hkind⟩

/-- A class prefix that calls the config function makes a usage of its own. -/
theorem keys_compile_prefix :
    let options : Options := { contextClassPrefix := "cfg(x)-" }
    let source := ".a \x7b @context dark; \x7d"
    let s := (Sheet.parse source "a.css").toOption.getD default
    Sheet.parse source "a.css" = .ok s ∧ s.declarations root = [] ∧
      s.atRulesNamed root "component" = [] ∧
      s.kind? 2 = some (.atRule "context" "dark" false) ∧
      compile source "a.css" options = .ok
        ⟨"a.css", ".a \x7b\n  composes: var(--makeup-x)-dark from global;\n\x7d\n",
          [⟨[".a"], "composes", "cfg(x)-dark from global", "x", "a.css"⟩]⟩ := by
  decide +kernel

end CssTheming.Compile
