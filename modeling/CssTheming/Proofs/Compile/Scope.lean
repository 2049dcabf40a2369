import CssTheming.Compile.Component
import CssTheming.Proofs.Compile.Argument
import CssTheming.Proofs.Sheet.Changes

/-!
# Scopes of components

The scope of a node is what the components around it make of a key: their keys from the outside in,
from the nearest rooted one on. What `expand` looks up in its list of components is the scope.
-/

namespace CssTheming

namespace Key

/-- What a key stands for in a scope. -/
def resolve (scope : List String) (key : String) : String :=
  if isRooted key then unrooted key else ".".intercalate (scope ++ [key])

variable {scope : List String} {key : String}

theorem isResolved_append {a b : String} (ha : isResolved a = true) (hb : isResolved b = true) :
    isResolved (a ++ "." ++ b) = true := by
  have hchars : (a ++ "." ++ b).toList = a.toList ++ '.' :: b.toList := by simp
  rw [isResolved, hchars, List.all_append, List.all_cons,
    List.all_eq_true.2 (isKeyChar_of_isResolved ha),
    List.all_eq_true.2 (isKeyChar_of_isResolved hb)]
  simp [isKeyChar]

theorem isResolved_intercalate (hne : scope ≠ []) (h : ∀ k ∈ scope, isResolved k = true) :
    isResolved (".".intercalate scope) = true := by
  induction scope with
  | nil => exact absurd rfl hne
  | cons k ks ih =>
    cases ks with
    | nil => simpa using h k List.mem_cons_self
    | cons l ks =>
      rw [String.intercalate_cons_cons]
      exact isResolved_append (h k List.mem_cons_self) (ih (by simp) fun m hm =>
        h m (List.mem_cons_of_mem k hm))

theorem isResolved_of_not_isRooted (h : isValid key = true) (hroot : isRooted key = false) :
    isResolved key = true := by
  rwa [isValid, hroot, Bool.or_false] at h

theorem resolve_nil (hkey : isValid key = true) : resolve [] key = unrooted key := by
  rw [resolve]
  cases hroot : isRooted key with
  | true => rfl
  | false =>
    rw [unrooted_of_isResolved (isResolved_of_not_isRooted hkey hroot), List.nil_append,
      String.intercalate_singleton]
    rfl

/-- A resolved key is one without a slash. -/
theorem isResolved_resolve (hscope : ∀ k ∈ scope, isResolved k = true) (hkey : isValid key = true) :
    isResolved (resolve scope key) = true := by
  rw [resolve]
  cases hroot : isRooted key with
  | true => exact isResolved_unrooted hkey
  | false =>
    refine isResolved_intercalate (by simp) fun k hk => ?_
    rcases List.mem_append.1 hk with hk | hk
    · exact hscope k hk
    · rw [List.mem_singleton.1 hk]
      exact isResolved_of_not_isRooted hkey hroot

theorem within_eq_resolve (hscope : ∀ k ∈ scope, isResolved k = true) (key : String) :
    within (".".intercalate scope) key = resolve scope key := by
  rw [within, resolve]
  cases isRooted key with
  | true => rfl
  | false =>
    by_cases hne : scope = []
    · subst hne
      simp
    · have hcomponent : ".".intercalate scope ≠ "" := by
        intro h
        have := isResolved_intercalate hne hscope
        rw [h] at this
        exact absurd this (by decide)
      rw [String.intercalate_append_of_ne_nil hne (by simp), String.intercalate_singleton,
        if_neg hcomponent]

end Key

namespace Compile

open Sheet

variable {options : Options} {s : Sheet} {keyword : String} {found components : Components}
    {ids : List Nat}

/-- The key that a component at-rule names. -/
def componentKey? (keyword : String) (s : Sheet) (id : Nat) : Option String :=
  match s.kind? id with
  | some (.atRule name key _) => if name = keyword then some key else none
  | _ => none

/-- The key of the component that a container makes. -/
def ownKey? (keyword : String) (s : Sheet) (block : Nat) : Option String :=
  (s.children block).findSome? (componentKey? keyword s)

/-- The keys of the components that some containers make, given from the inside out and answered
from the outside in. -/
def scopeOf (keyword : String) (s : Sheet) : List Nat → List String
  | [] => []
  | a :: as =>
    match ownKey? keyword s a with
    | none => scopeOf keyword s as
    | some key => if Key.isRooted key then [Key.unrooted key] else scopeOf keyword s as ++ [key]

/-- The scope of the keys at a node. -/
def scopeAt (keyword : String) (s : Sheet) (id : Nat) : List String :=
  scopeOf keyword s (s.ancestors id)

theorem componentKey?_of_kind? {id : Nat} {key : String} {hasBlock : Bool}
    (h : s.kind? id = some (.atRule keyword key hasBlock)) :
    componentKey? keyword s id = some key := by
  rw [componentKey?, h]
  exact if_pos rfl

theorem kind?_of_componentKey? {id : Nat} {key : String}
    (h : componentKey? keyword s id = some key) :
    ∃ hasBlock, s.kind? id = some (.atRule keyword key hasBlock) := by
  rw [componentKey?] at h
  split at h
  · rename_i name key' hasBlock hk
    split at h
    · rename_i hname
      cases h
      exact ⟨hasBlock, by rw [hk, hname]⟩
    · simp at h
  · simp at h

/-- The list of components holds the key of each at-rule for the block that it stands in, and no
block twice. -/
theorem collectComponents_eq_ok
    (hids : ∀ id ∈ ids, (componentKey? keyword s id).isSome ∧ (s.parent? id).isSome)
    (hnodup : (found.map Prod.fst).Nodup)
    (h : collectComponents s keyword found ids = .ok components) :
    (components.map Prod.fst).Nodup ∧
      (∀ id ∈ ids, ∀ key, componentKey? keyword s id = some key → Key.isValid key = true) ∧
      ∀ block key, (block, key) ∈ components ↔ (block, key) ∈ found ∨
        ∃ id ∈ ids, s.parent? id = some block ∧ componentKey? keyword s id = some key := by
  induction ids generalizing found with
  | nil =>
    cases h
    exact ⟨hnodup, by simp, by simp⟩
  | cons id ids ih =>
    obtain ⟨hkey, hparent⟩ := hids id List.mem_cons_self
    obtain ⟨key, hkey⟩ := Option.isSome_iff_exists.1 hkey
    obtain ⟨block, hparent⟩ := Option.isSome_iff_exists.1 hparent
    obtain ⟨hasBlock, hkind⟩ := kind?_of_componentKey? hkey
    rw [collectComponents, hkind, hparent] at h
    dsimp only at h
    cases hcheck : checkKey (s.location id) key with
    | error e =>
      rw [hcheck] at h
      cases h
    | ok u =>
      rw [hcheck] at h
      dsimp only at h
      split at h
      · cases h
      · rename_i hnew
        have hnodup' : ((found ++ [(block, key)]).map Prod.fst).Nodup := by
          rw [List.map_append, List.nodup_append]
          refine ⟨hnodup, by simp, ?_⟩
          rintro b hb _ hblock rfl
          obtain rfl := List.mem_singleton.1 hblock
          obtain ⟨p, hp, hpb⟩ := List.mem_map.1 hb
          exact hnew (List.any_eq_true.2 ⟨p, hp, by simpa using hpb⟩)
        obtain ⟨hout, hvalid, hmem⟩ :=
          ih (fun i hi => hids i (List.mem_cons_of_mem id hi)) hnodup' h
        refine ⟨hout, fun i hi k hk => ?_, fun b k => ?_⟩
        · rcases List.mem_cons.1 hi with rfl | hi
          · obtain rfl := Option.some.inj (hkey.symm.trans hk)
            exact checkKey_eq_ok.1 hcheck
          · exact hvalid i hi k hk
        · have hhead : (b, k) = (block, key) ↔ s.parent? id = some b ∧
              componentKey? keyword s id = some k := by
            rw [hparent, hkey, Option.some.injEq, Option.some.injEq, Prod.mk.injEq, eq_comm,
              eq_comm (a := k)]
          rw [hmem, List.mem_append, List.mem_singleton, hhead, or_assoc]
          simp only [List.mem_cons, exists_eq_or_imp]

theorem lookup_eq_some {α β : Type} [BEq α] [LawfulBEq α] {l : List (α × β)}
    (h : (l.map Prod.fst).Nodup) {a : α} {b : β} :
    l.lookup a = some b ↔ (a, b) ∈ l := by
  rw [List.lookup_eq_some_iff]
  constructor
  · rintro ⟨front, back, rfl, -⟩
    simp
  · intro hmem
    obtain ⟨front, back, rfl⟩ := List.append_of_mem hmem
    refine ⟨front, back, rfl, fun p hp => ?_⟩
    rw [List.map_append, List.nodup_append] at h
    have hne : p.1 ≠ a := h.2.2 p.1 (List.mem_map_of_mem hp) a (by simp)
    exact bne_iff_ne.2 hne.symm

theorem mem_descendants_of_child (hs : s.Linked) {a c : Nat}
    (ha : a = root ∨ a ∈ s.descendants root)
    (hc : c ∈ s.children a) : c ∈ s.descendants root :=
  hs.mem_descendants_parent.2 ⟨a, (hs.below hc).2, ha⟩

/-- What the components of a stylesheet are, once they were collected. -/
structure Collected (keyword : String) (s : Sheet) (components : Components) : Prop where
  lookup : ∀ a, a = root ∨ a ∈ s.descendants root → components.lookup a = ownKey? keyword s a
  valid : ∀ p ∈ components, Key.isValid p.2 = true
  reached : ∀ p ∈ components, p.1 = root ∨ p.1 ∈ s.descendants root

theorem collected (hs : s.Linked)
    (h : collectComponents s keyword [] (s.atRulesNamed root keyword) = .ok components) :
    Collected keyword s components := by
  have hids : ∀ id ∈ s.atRulesNamed root keyword, (componentKey? keyword s id).isSome ∧
      (s.parent? id).isSome := by
    intro id hid
    obtain ⟨hmem, key, hasBlock, hk⟩ := exists_of_mem_atRulesNamed hid
    obtain ⟨p, hp, -⟩ := hs.mem_descendants_parent.1 hmem
    rw [componentKey?_of_kind? hk, hp]
    exact ⟨rfl, rfl⟩
  obtain ⟨hnodup, hvalid, hmem⟩ := collectComponents_eq_ok hids (by simp) h
  have hmem : ∀ block key, (block, key) ∈ components ↔ ∃ id ∈ s.atRulesNamed root keyword,
      s.parent? id = some block ∧ componentKey? keyword s id = some key := by
    simpa using hmem
  refine ⟨fun a ha => ?_, fun p hp => ?_, fun p hp => ?_⟩
  · cases hown : ownKey? keyword s a with
    | some key =>
      obtain ⟨c, hc, hkey⟩ := List.exists_of_findSome?_eq_some hown
      obtain ⟨hasBlock, hkind⟩ := kind?_of_componentKey? hkey
      have hnamed :=
        (mem_atRulesNamed hkind).2 ⟨mem_descendants_of_child hs ha hc, decide_eq_true rfl⟩
      rw [lookup_eq_some hnodup, hmem]
      exact ⟨c, hnamed, (hs.below hc).2, hkey⟩
    | none =>
      rw [← Option.not_isSome_iff_eq_none, Option.isSome_iff_exists]
      rintro ⟨key, hkey⟩
      obtain ⟨c, -, hparent, hkey⟩ := (hmem a key).1 ((lookup_eq_some hnodup).1 hkey)
      have hnone := List.findSome?_eq_none_iff.1 hown c (hs.above hparent)
      rw [hkey] at hnone
      simp at hnone
  · obtain ⟨id, hid, -, hkey⟩ := (hmem p.1 p.2).1 hp
    exact hvalid id hid p.2 hkey
  · obtain ⟨id, hid, hparent, -⟩ := (hmem p.1 p.2).1 hp
    obtain ⟨q, hq, hroot⟩ := hs.mem_descendants_parent.1 (List.mem_filter.1 hid).1
    obtain rfl := Option.some.inj (hq.symm.trans hparent)
    exact hroot

theorem mem_ancestors_root (hs : s.Linked) {id a : Nat} (hid : id ∈ s.descendants root)
    (ha : a ∈ s.ancestors id) :
    a = root ∨ a ∈ s.descendants root := by
  induction id using Nat.strongRecOn with
  | ind id ih =>
    obtain ⟨p, hp, hproot⟩ := hs.mem_descendants_parent.1 hid
    rw [hs.ancestors_eq, hp] at ha
    rcases List.mem_cons.1 ha with rfl | ha
    · exact hproot
    · rcases hproot with rfl | hproot
      · rw [hs.ancestors_eq, hs.parent?_root] at ha
        simp at ha
      · exact ih p (hs.lt_of_parent? hp) hproot ha

/-- The path through the components is the scope, inside out. -/
theorem componentPath_eq {as : List Nat} (h : ∀ a ∈ as, components.lookup a = ownKey? keyword s a) :
    componentPath components as = (scopeOf keyword s as).reverse := by
  induction as with
  | nil => rfl
  | cons a as ih =>
    have ih := ih fun b hb => h b (List.mem_cons_of_mem a hb)
    rw [componentPath, scopeOf, h a List.mem_cons_self]
    cases ownKey? keyword s a with
    | none => exact ih
    | some key =>
      dsimp only
      split
      · rfl
      · rw [ih, List.reverse_append]
        rfl

theorem isResolved_of_mem_scopeOf {as : List Nat}
    (h : ∀ a ∈ as, ∀ key, ownKey? keyword s a = some key → Key.isValid key = true) :
    ∀ k ∈ scopeOf keyword s as, Key.isResolved k = true := by
  induction as with
  | nil => simp [scopeOf]
  | cons a as ih =>
    have ih := ih fun b hb => h b (List.mem_cons_of_mem a hb)
    intro k hk
    rw [scopeOf] at hk
    cases hown : ownKey? keyword s a with
    | none =>
      rw [hown] at hk
      exact ih k hk
    | some key =>
      have hvalid := h a List.mem_cons_self key hown
      rw [hown] at hk
      dsimp only at hk
      split at hk
      · obtain rfl := List.mem_singleton.1 hk
        exact Key.isResolved_unrooted hvalid
      · rename_i hroot
        rcases List.mem_append.1 hk with hk | hk
        · exact ih k hk
        · obtain rfl := List.mem_singleton.1 hk
          exact Key.isResolved_of_not_isRooted hvalid (by simpa using hroot)

/-! ## One component or none -/

theorem componentPath_of_not_mem {block : Nat} {key : String} {as : List Nat} (h : block ∉ as) :
    componentPath [(block, key)] as = [] := by
  induction as with
  | nil => rfl
  | cons a as ih =>
    rw [List.mem_cons, not_or] at h
    have hlookup : [(block, key)].lookup a = none := by simp [Ne.symm h.1]
    rw [componentPath, hlookup]
    exact ih h.2

theorem componentPath_of_mem {block : Nat} {key : String} {as : List Nat}
    (hkey : Key.isValid key = true) (h : block ∈ as)
    (hnodup : as.Nodup) : componentPath [(block, key)] as = [Key.unrooted key] := by
  induction as with
  | nil => simp at h
  | cons a as ih =>
    obtain ⟨ha, hnodup⟩ := List.nodup_cons.1 hnodup
    by_cases hblock : block = a
    · subst hblock
      have hlookup : [(block, key)].lookup block = some key := by simp
      rw [componentPath, hlookup, componentPath_of_not_mem ha]
      dsimp only
      split
      · rfl
      · rename_i hroot
        rw [Key.unrooted_of_isResolved (Key.isResolved_of_not_isRooted hkey (by simpa using hroot))]
    · have hlookup : [(block, key)].lookup a = none := by simp [Ne.symm hblock]
      rw [componentPath, hlookup]
      exact ih ((List.mem_cons.1 h).resolve_left hblock) hnodup

section Collected

variable (hs : s.Linked) (hcollected : Collected keyword s components) {id : Nat}
    (hid : id ∈ s.descendants root)
include hs hcollected hid

theorem componentPath_ancestors :
    componentPath components (s.ancestors id) = (scopeAt keyword s id).reverse :=
  componentPath_eq fun a ha => hcollected.lookup a (mem_ancestors_root hs hid ha)

theorem isResolved_scopeAt : ∀ k ∈ scopeAt keyword s id, Key.isResolved k = true := by
  apply isResolved_of_mem_scopeOf
  intro a ha key hown
  rw [← hcollected.lookup a (mem_ancestors_root hs hid ha), List.lookup_eq_some_iff] at hown
  obtain ⟨front, back, hcomponents, -⟩ := hown
  exact hcollected.valid (a, key) (by simp [hcomponents])

theorem scopeAt_eq_nil (h : ".".intercalate (scopeAt keyword s id) = "") :
    scopeAt keyword s id = [] := by
  by_cases hne : scopeAt keyword s id = []
  · exact hne
  · have := Key.isResolved_intercalate hne (isResolved_scopeAt hs hcollected hid)
    rw [h] at this
    exact absurd this (by decide)

end Collected

end Compile

end CssTheming
