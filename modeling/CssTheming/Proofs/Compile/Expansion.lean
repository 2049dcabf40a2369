import CssTheming.Proofs.Compile.Component
import CssTheming.Proofs.Sheet.Parsed
import CssTheming.Proofs.Sheet.Removal

/-!
# What is left of an expanded stylesheet

The expansion of components takes their at-rules out, each with all below it. It writes keys into
values and parameters that are left and changes nothing else.
-/

namespace CssTheming.Compile

open Value Sheet

variable {options : Options} {s s' t : Sheet} {components : Components} {component : String}

/-- What the expansion of a component may make of a node. -/
inductive Reworded (options : Options) (component : String) : Kind → Kind → Prop
  | same (kind : Kind) : Reworded options component kind kind
  | value {property value : String} {important : Bool}
      (h : Text.contains value (callMarker options) = true) :
      Reworded options component (.declaration property value important)
        (.declaration property (text (replaceCalls options.configKeyword
          (expandedCall component property) (parse value))) important)
  | params {params : String} {hasBlock : Bool} :
      Reworded options component (.atRule options.contextKeyword params hasBlock)
        (.atRule options.contextKeyword (Key.within component (contextKey params)) hasBlock)

theorem Expands.reworded {location : Location} {k k' : Kind}
    (h : Expands options location component k k') (hsite : isSite options k = true) :
    Reworded options component k k' := by
  cases k with
  | declaration property value important =>
    obtain ⟨value', hvalue, rfl⟩ := h
    obtain ⟨rfl, -⟩ := expandValue_eq_ok hvalue
    exact .value hsite
  | atRule name params hasBlock =>
    obtain ⟨params', hkey, rfl⟩ := h
    obtain rfl : name = options.contextKeyword := of_decide_eq_true hsite
    obtain ⟨rfl, -⟩ := fullKey_eq_ok hkey
    exact .params
  | _ => cases hsite

/-- The sites that are expanded stand once each in the list, and each has one component. -/
theorem exists_componentSites_eq (ht : t.Linked) (options : Options) (components : Components) :
    ∃ (ids : List Nat) (componentAt : Nat → String),
      componentSites options components t = ids.map (fun id => (id, componentAt id)) ∧
        ids.Nodup ∧ ∀ id ∈ ids, (t.kind? id).any (isSite options) = true := by
  have hnodup : ∀ scope, (sites options t scope).Nodup :=
    fun scope => (ht.nodup_descendants scope).filter _
  have hsite : ∀ scope, ∀ id ∈ sites options t scope, (t.kind? id).any (isSite options) = true :=
    fun scope id hid => (List.mem_filter.1 hid).2
  match components with
  | [] => exact ⟨[], fun _ => "", rfl, List.nodup_nil, by simp⟩
  | [(block, key)] =>
    exact ⟨sites options t block, fun _ => Key.unrooted key, rfl, hnodup block, hsite block⟩
  | p :: q :: ps =>
    let written id := componentOf (p :: q :: ps) t id ≠ "" ||
      !(t.kind? id).any Kind.isDeclaration
    refine ⟨(sites options t root).filter written, componentOf (p :: q :: ps) t, ?_,
      (hnodup root).filter _, fun id hid => hsite root id (List.mem_filter.1 hid).1⟩
    exact List.filter_map

/-- An expanded stylesheet is the one that the component at-rules were taken out of, with some of
its nodes reworded. -/
theorem exists_pruned_of_expand (hs : s.Linked) (h : expand options s = (s', .ok ())) :
    ∃ t, Pruned (s.atRulesNamed root options.componentKeyword) s t ∧ SameTree t s' ∧
      ∀ id k, s.kind? id = some k → ∃ component k', s'.kind? id = some k' ∧
        Reworded options component k k' := by
  obtain ⟨components, -, h⟩ := exists_expandSites_eq h
  have hpruned := hs.pruned (s.atRulesNamed root options.componentKeyword)
  generalize (s.atRulesNamed root options.componentKeyword).foldl remove s = t at h hpruned
  obtain ⟨ids, componentAt, hsites, hnodup, hsite⟩ :=
    exists_componentSites_eq hpruned.linked options components
  rw [hsites] at h
  have hkinds : ∀ id ∈ ids, ∃ k, t.kind? id = some k := by
    intro id hid
    obtain ⟨k, hk, -⟩ := (Option.any_eq_true _ _).1 (hsite id hid)
    exact ⟨k, hk⟩
  have hedited := expandSites_eq_ok (.refl t) hnodup hkinds h
  refine ⟨t, hpruned, hedited.sameTree, fun id k hk => ?_⟩
  rw [← hpruned.kind] at hk
  by_cases hmem : id ∈ ids
  · obtain ⟨k', hk', hexpands⟩ := hedited.each id hmem k hk
    have hsite := hsite id hmem
    rw [hk, Option.any_some] at hsite
    exact ⟨componentAt id, k', hk', hexpands.reworded hsite⟩
  · exact ⟨"", k, (hedited.others id hmem).trans hk, .same k⟩

/-- The expansion of components takes out the at-rules that name them and all that is below these,
so nothing else only if nothing else is below them. What is left stays in its order and its places
and is as it was, but for the values with calls and the parameters of context at-rules. -/
theorem descendants_expand {source path : String} (hparse : Sheet.parse source path = .ok s)
    (h : expand options s = (s', .ok ())) :
    let atRules := s.atRulesNamed root options.componentKeyword
    s'.descendants root = (s.descendants root).filter (fun id => Outside s atRules id) ∧
      (s'.descendants root = (s.descendants root).filter (· ∉ atRules) ↔
        ∀ a ∈ atRules, ∀ id ∈ s.descendants a, id ∈ atRules) ∧
      ∀ id ∈ s'.descendants root, s'.parent? id = s.parent? id ∧ s'.location id = s.location id ∧
        ∃ component k k', s.kind? id = some k ∧ s'.kind? id = some k' ∧
          Reworded options component k k' := by
  intro atRules
  obtain ⟨hs, -⟩ := linked_showsChildren_of_parse hparse
  obtain ⟨t, hpruned, htree, hreworded⟩ := exists_pruned_of_expand hs h
  have hids : ∀ a ∈ atRules, a ∈ s.descendants root := fun a ha => (List.mem_filter.1 ha).1
  have hroot : root ∉ atRules := fun hmem =>
    Nat.lt_irrefl root (hs.lt_of_mem_descendants (hids root hmem))
  have hleft : s'.descendants root = (s.descendants root).filter (Outside s atRules ·) :=
    (htree.descendants_eq hpruned.linked root).trans (hpruned.descendants_root_eq hs hroot)
  refine ⟨hleft, ?_, fun id hid => ?_⟩
  · rw [hleft]
    exact hs.filter_outside_eq_iff hids
  · rw [hleft, List.mem_filter, decide_eq_true_iff] at hid
    obtain ⟨hid, houtside⟩ := hid
    obtain ⟨k, hk⟩ := exists_kind?_of_mem_descendants hs hid
    obtain ⟨component, k', hk', hkinds⟩ := hreworded id k hk
    refine ⟨?_, (htree.location_eq id).trans (hpruned.location id), component, k, k', hk, hk',
      hkinds⟩
    rw [htree.parent?_eq, hpruned.parent, if_neg houtside.not_mem]

/-- A component at-rule with a block loses the rule in it; the call behind it gets its key. -/
theorem descendants_expand_block :
    let source := ".a\x7b@component x\x7b.b\x7bcolor:red\x7d\x7dcolor:cfg(k)\x7d"
    let s := (Sheet.parse source "a.css").toOption.getD default
    let s' := (expand {} s).1
    Sheet.parse source "a.css" = .ok s ∧ expand {} s = (s', .ok ()) ∧
      s.descendants root = [1, 2, 3, 4, 5] ∧ s'.descendants root = [1, 5] ∧
      s'.parent? 5 = some 1 ∧ s'.kind? 5 = some (.declaration "color" "cfg(x.k)" false) ∧
      s'.descendants root ≠ (s.descendants root).filter (· ∉ s.atRulesNamed root "component") := by
  intro source s s'
  obtain ⟨hparse, hexpand, hbefore, hrules, hafter⟩ : Sheet.parse source "a.css" = .ok s ∧
      expand {} s = (s', .ok ()) ∧ s.descendants root = [1, 2, 3, 4, 5] ∧
      s.atRulesNamed root "component" = [2] ∧
      (s.descendants root).filter (fun id => Outside s [2] id) = [1, 5] := by decide +kernel
  obtain ⟨hbelow, hkind, hparent⟩ : 3 ∈ s.descendants 2 ∧
      s'.kind? 5 = some (.declaration "color" "cfg(x.k)" false) ∧ s.parent? 5 = some 1 := by
    decide +kernel
  obtain ⟨hleft, hlost, hstays⟩ := descendants_expand hparse hexpand
  rw [show ({} : Options).componentKeyword = "component" from rfl, hrules] at hleft hlost
  rw [hafter] at hleft
  refine ⟨hparse, hexpand, hbefore, hleft, ?_, hkind, ?_⟩
  · rw [(hstays 5 (by rw [hleft]; decide)).1, hparent]
  · rw [hrules]
    intro heq
    exact absurd (hlost.1 heq 2 List.mem_cons_self 3 hbelow) (by decide)

/-- A sheet that is all in the block of a component at-rule comes out empty. -/
theorem expand_emptied :
    let source := "@component button \x7b .a \x7b color: red; \x7d \x7d"
    let s := (Sheet.parse source "test.css").toOption.getD default
    let s' := (expand {} s).1
    Sheet.parse source "test.css" = .ok s ∧ expand {} s = (s', .ok ()) ∧
      (s.descendants root).filter (· ∉ s.atRulesNamed root "component") = [2, 3] ∧
      s.kind? 2 = some (.rule ".a") ∧ s.kind? 3 = some (.declaration "color" "red" false) ∧
      s'.descendants root = [] ∧ s'.css = "" := by
  decide +kernel

end CssTheming.Compile
