import CssTheming.Proofs.Compile.Component
import CssTheming.Proofs.Compile.Context
import CssTheming.Sheet.Selectors

/-!
# Prepared stylesheets

What comes before references are made writes the scopes of keys out and takes the components away.
It is related to the source node by node, and the keys in it resolve to themselves.
-/

namespace CssTheming.Compile

open Sheet

variable {options : Options} {s t u : Sheet} {id p n : Nat}

/-- What becomes of a node whose keys are in this scope, before references are made. -/
inductive Prepares (options : Options) (scope : List String) : Kind → Kind → Prop
  | kept {property value : String} {important : Bool}
    (h : Text.contains value (callMarker options) = true → scope = []) :
      Prepares options scope (.declaration property value important)
        (.declaration property value important)
  | expanded {property value value' : String} {important : Bool} {location : Location}
      (h : expandValue options location (".".intercalate scope) property value = .ok value') :
      Prepares options scope (.declaration property value important)
        (.declaration property value' important)
  | composed {params : String} (hkey : Key.isValid (contextKey params) = true) :
      Prepares options scope (.atRule options.contextKeyword params false)
        (composition options (Key.resolve scope (contextKey params)))
  | other {kind : Kind} (hdeclaration : kind.isDeclaration = false)
      (hname : kind.isAtRuleNamed options.contextKeyword = false) : Prepares options scope kind kind

theorem Prepares.isDeclaration {scope : List String} {k k' : Kind} (h : Prepares options scope k k')
    (hk' : k'.isDeclaration = false) : k.isDeclaration = false := by
  cases h with
  | other hdeclaration => exact hdeclaration
  | _ => cases hk'

/-- A stylesheet without components and contexts in the place of one that has them. -/
structure Prepared (options : Options) (s u : Sheet) : Prop where
  linked : u.Linked
  descendants : u.descendants root =
    (s.descendants root).filter (· ∉ s.atRulesNamed root options.componentKeyword)
  parent : ∀ id ∈ u.descendants root, u.parent? id = s.parent? id
  rule : ∀ id k selector, s.kind? id = some k →
    (u.kind? id = some (.rule selector) ↔ k = .rule selector)
  scope : ∀ id ∈ u.descendants root, ∀ k ∈ scopeAt options.componentKeyword s id,
    Key.isResolved k = true
  node : ∀ id ∈ u.descendants root, ∀ k, s.kind? id = some k →
    ∃ k', u.kind? id = some k' ∧ Prepares options (scopeAt options.componentKeyword s id) k k'

theorem contextKey_of_isResolved {key : String} (h : Key.isResolved key = true) :
    contextKey key = key := by
  rw [contextKey, if_neg]
  rintro rfl
  exact absurd h (by decide)

theorem composition_resolve_nil {key : String} (h : Key.isValid key = true) :
    composition options (Key.resolve [] key) = composition options key := by
  rw [Key.resolve_nil h, composition, Key.unrooted_of_isResolved (Key.isResolved_unrooted h),
    composition]

/-- What expanding and composing make of a node in turn. -/
theorem prepares {scope : List String} (hscope : ∀ k ∈ scope, Key.isResolved k = true)
    {k k₁ k₂ : Kind}
    (hexpand : k₁ = k ∧ (isSite options k = true → scope = []) ∨
      isSite options k = true ∧ ∃ location, Expands options location (".".intercalate scope) k k₁)
    (hcompose : if k₁.isAtRuleNamed options.contextKeyword then Composes options k₁ k₂
      else k₂ = k₁) :
    Prepares options scope k k₂ := by
  cases k with
  | declaration property value important =>
    rcases hexpand with ⟨rfl, hnone⟩ | ⟨-, location, value', hvalue, rfl⟩
    · obtain rfl : k₂ = _ := hcompose
      exact .kept hnone
    · obtain rfl : k₂ = _ := hcompose
      exact .expanded hvalue
  | atRule name params hasBlock =>
    by_cases hname : name = options.contextKeyword
    · subst hname
      have hnamed : ∀ params,
          (Kind.atRule options.contextKeyword params hasBlock).isAtRuleNamed
          options.contextKeyword = true :=
        fun _ => decide_eq_true rfl
      rcases hexpand with ⟨rfl, hnone⟩ | ⟨-, location, params', hfull, rfl⟩
      · rw [if_pos (hnamed _)] at hcompose
        cases hasBlock with
        | true => exact hcompose.elim
        | false =>
          obtain ⟨hvalid, rfl⟩ := hcompose
          rw [hnone (hnamed params), ← composition_resolve_nil hvalid]
          exact .composed hvalid
      · rw [if_pos (hnamed _)] at hcompose
        cases hasBlock with
        | true => exact hcompose.elim
        | false =>
          obtain ⟨rfl, hvalid, -⟩ := fullKey_eq_ok hfull
          obtain ⟨-, rfl⟩ := hcompose
          rw [Key.within_eq_resolve hscope,
            contextKey_of_isResolved (Key.isResolved_resolve hscope hvalid)]
          exact .composed hvalid
    · have hnamed : (Kind.atRule name params hasBlock).isAtRuleNamed options.contextKeyword =
        false := decide_eq_false hname
      rcases hexpand with ⟨rfl, -⟩ | ⟨hsite, -⟩
      · rw [hnamed] at hcompose
        obtain rfl : k₂ = _ := hcompose
        exact .other rfl hnamed
      · rw [isSite, decide_eq_true_iff] at hsite
        exact absurd hsite hname
  | _ =>
    rcases hexpand with ⟨rfl, -⟩ | ⟨hsite, -⟩
    · obtain rfl : k₂ = _ := hcompose
      exact .other rfl rfl
    · simp [isSite] at hsite

theorem Expands.rule_iff {location : Location} {component selector : String} {k k' : Kind}
    (h : Expands options location component k k') : k' = .rule selector ↔ k = .rule selector := by
  cases k with
  | declaration property value important =>
    obtain ⟨_, -, rfl⟩ := h
    simp
  | atRule name params hasBlock =>
    obtain ⟨_, -, rfl⟩ := h
    simp
  | _ => rw [show k' = _ from h]

theorem Expands.eq_atRule {location : Location} {component name params : String}
    {hasBlock : Bool} {k : Kind}
    (h : Expands options location component k (.atRule name params hasBlock)) :
    ∃ params, k = .atRule name params hasBlock := by
  cases k with
  | declaration property value important =>
    obtain ⟨_, -, heq⟩ := h
    cases heq
  | atRule name params hasBlock =>
    obtain ⟨_, -, heq⟩ := h
    cases heq
    exact ⟨params, rfl⟩
  | _ => cases h

theorem Composes.rule_iff {selector : String} {k k' : Kind} (h : Composes options k k') :
    k' = .rule selector ↔ k = .rule selector := by
  cases k with
  | atRule name params hasBlock =>
    cases hasBlock with
    | true => exact h.elim
    | false =>
      rw [h.2, composition]
      simp
  | _ => exact h.elim

/-- A stylesheet whose components were written out and taken out. -/
structure Expanded (options : Options) (s t : Sheet) : Prop where
  linked : t.Linked
  descendants : t.descendants root =
    (s.descendants root).filter (· ∉ s.atRulesNamed root options.componentKeyword)
  parent : ∀ id ∈ t.descendants root, t.parent? id = s.parent? id
  leaf : ∀ id, s.children id = [] → t.children id = []
  scope : ∀ id ∈ t.descendants root, ∀ k ∈ scopeAt options.componentKeyword s id,
    Key.isResolved k = true
  node : ∀ id k, s.kind? id = some k → ∃ k₁, t.kind? id = some k₁ ∧
    (k₁ = k ∧ (id ∈ t.descendants root → isSite options k = true →
      scopeAt options.componentKeyword s id = []) ∨
      isSite options k = true ∧ ∃ location,
        Expands options location (".".intercalate (scopeAt options.componentKeyword s id)) k k₁)

theorem expanded (hs : s.Linked)
    (hcomponent : ∀ id ∈ s.atRulesNamed root options.componentKeyword, s.children id = [])
    (h : expand options s = (t, .ok ())) : Expanded options s t := by
  obtain ⟨components, cleared, hcleared, htree, hnode⟩ := expand_eq_ok hs hcomponent h
  have hbelow : t.descendants root = cleared.descendants root :=
    htree.descendants_eq hcleared.pruned.linked root
  refine ⟨htree.linked hcleared.pruned.linked, ?_, ?_, ?_, ?_, ?_⟩
  · rw [hbelow, hcleared.pruned.descendants_eq hs hcomponent]
  · intro id hid
    rw [hbelow, hcleared.mem_descendants_iff] at hid
    rw [htree.parent?_eq, hcleared.pruned.parent, if_neg hid.2]
  · intro id hleaf
    rw [htree.children_eq, hcleared.pruned.children, hleaf]
    rfl
  · intro id hid
    rw [hbelow, hcleared.mem_descendants_iff] at hid
    exact isResolved_scopeAt hs hcleared.collected hid.1
  · intro id k hk
    rcases hnode id k hk with ⟨hkept, hnone⟩ | ⟨⟨-, hsite⟩, k₁, hk₁, hexpands⟩
    · exact ⟨k, hkept, .inl ⟨rfl, fun hid => hnone (hbelow ▸ hid)⟩⟩
    · exact ⟨k₁, hk₁, .inr ⟨hsite, _, hexpands⟩⟩

theorem Expanded.exists_kind? (h : Expanded options s t) (hs : s.Linked)
    (hid : id ∈ t.descendants root) :
    ∃ k, s.kind? id = some k := by
  rw [h.descendants] at hid
  exact exists_kind?_of_mem_descendants hs (List.mem_filter.1 hid).1

/-- The context at-rules are those of the source. -/
theorem Expanded.isContext (h : Expanded options s t) (hs : s.Linked)
    (hcontext : ∀ id params, s.kind? id = some (.atRule options.contextKeyword params false) →
      s.children id = [])
    (hid : id ∈ t.atRulesNamed root options.contextKeyword) : IsContext options t id := by
  obtain ⟨hroot, params, hasBlock, hk₁⟩ := exists_of_mem_atRulesNamed hid
  refine ⟨params, hasBlock, hk₁, ?_⟩
  rintro rfl
  obtain ⟨k, hk⟩ := h.exists_kind? hs hroot
  obtain ⟨k₁, hk₁', hstep⟩ := h.node id k hk
  obtain rfl := Option.some.inj (hk₁.symm.trans hk₁')
  rcases hstep with ⟨rfl, -⟩ | ⟨-, location, hexpands⟩
  · exact h.leaf id (hcontext id params hk)
  · obtain ⟨given, rfl⟩ := hexpands.eq_atRule
    exact h.leaf id (hcontext id given hk)

/-- Expanding and composing leave no component and no context. -/
theorem prepared (hs : s.Linked)
    (hcomponent : ∀ id ∈ s.atRulesNamed root options.componentKeyword, s.children id = [])
    (hcontext : ∀ id params, s.kind? id = some (.atRule options.contextKeyword params false) →
      s.children id = [])
    (hexpand : expand options s = (t, .ok ())) (hcompose : compose options t = (u, .ok n)) :
    Prepared options s u := by
  have hexpanded := expanded hs hcomponent hexpand
  have hedited :=
    compose_eq_ok hexpanded.linked (fun id hid => hexpanded.isContext hs hcontext hid) hcompose
  have hbelow : u.descendants root = t.descendants root :=
    hedited.sameTree.descendants_eq hexpanded.linked root
  have hcomposed : ∀ id k₁, t.kind? id = some k₁ → ∃ k₂, u.kind? id = some k₂ ∧
      if id ∈ t.atRulesNamed root options.contextKeyword then Composes options k₁ k₂
        else k₂ = k₁ := by
    intro id k₁ hk₁
    by_cases hid : id ∈ t.atRulesNamed root options.contextKeyword
    · simpa only [if_pos hid] using hedited.each id hid k₁ hk₁
    · simpa only [if_neg hid, exists_eq_right] using (hedited.others id hid).trans hk₁
  refine ⟨hedited.sameTree.linked hexpanded.linked,
    hbelow.trans hexpanded.descendants, ?_, ?_, ?_, ?_⟩
  · intro id hid
    rw [hedited.sameTree.parent?_eq, hexpanded.parent id (hbelow ▸ hid)]
  · intro id k selector hk
    obtain ⟨k₁, hk₁, hfirst⟩ := hexpanded.node id k hk
    obtain ⟨k₂, hk₂, hsecond⟩ := hcomposed id k₁ hk₁
    have hstep : k₂ = .rule selector ↔ k₁ = .rule selector := by
      split at hsecond
      · exact hsecond.rule_iff
      · rw [hsecond]
    rw [hk₂, Option.some.injEq, hstep]
    rcases hfirst with ⟨rfl, -⟩ | ⟨-, location, hexpands⟩
    · rfl
    · exact hexpands.rule_iff
  · exact fun id hid => hexpanded.scope id (hbelow ▸ hid)
  · intro id hid k hk
    rw [hbelow] at hid
    obtain ⟨k₁, hk₁, hfirst⟩ := hexpanded.node id k hk
    obtain ⟨k₂, hk₂, hsecond⟩ := hcomposed id k₁ hk₁
    refine ⟨k₂, hk₂, prepares (hexpanded.scope id hid) (hfirst.imp_left fun hkept =>
      ⟨hkept.1, hkept.2 hid⟩) ?_⟩
    simpa only [mem_atRulesNamed hk₁, hid, true_and] using hsecond

theorem Prepared.mem_descendants_iff (h : Prepared options s u) : id ∈ u.descendants root ↔
    id ∈ s.descendants root ∧ id ∉ s.atRulesNamed root options.componentKeyword := by
  rw [h.descendants, List.mem_filter, decide_eq_true_iff]

theorem Prepared.selectors_eq (h : Prepared options s u) (hs : s.Linked)
    (hid : id ∈ u.descendants root) :
    (u.parent? id).elim [] u.selectors = (s.parent? id).elim [] s.selectors := by
  rw [h.parent id hid]
  cases hp : s.parent? id with
  | none => rfl
  | some p =>
    have hlt := Nat.lt_trans (hs.lt_of_parent? hp) (lt_size_of_parent? hp)
    obtain ⟨k, hk⟩ := exists_kind? hlt
    have hrule := h.rule p k
    rw [Option.elim_some, Option.elim_some, selectors, selectors, hk]
    cases k with
    | rule selector => rw [(hrule selector hk).2 rfl]
    | _ =>
      dsimp only
      split
      · rename_i selector hselector
        simp [hk] at hrule
        exact absurd hselector (hrule selector)
      · rfl

end CssTheming.Compile
