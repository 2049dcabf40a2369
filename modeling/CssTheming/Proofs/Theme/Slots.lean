import CssTheming.Proofs.Table
import CssTheming.Theme.Flatten
import Mathlib.Data.List.Dedup
import Mathlib.Data.List.Induction

/-!
# Slots of a theme

A theme has one value at most for a key without a context, and one for the key in each context. What
is put in such a slot takes the place of what was there, so a theme that is made of leaves has the
last leaf of every slot, and as many values as its leaves have slots.
-/

namespace CssTheming.Theme

variable {t : Theme} {ls : List Leaf} {key key' : String} {context context' : Option String}

/-- A key, and the context in whose table it has a value. -/
abbrev Slot := String × Option String

def Leaf.slot (l : Leaf) : Slot := (l.key, l.context)

theorem get?_insert (t : Theme) (key : String) (context : Option String) (value : Literal)
    (key' : String) (context' : Option String) :
    (t.insert key context value).get? key' context' =
      if (key, context) = (key', context') then some value else t.get? key' context' := by
  cases context with
  | none =>
    cases context' with
    | none => simp [insert, get?, eq_comm]
    | some c' => simp [insert, get?]
  | some c =>
    cases context' with
    | none => simp [insert, get?]
    | some c' =>
      by_cases hc : c = c'
      · subst hc
        by_cases hkey : key = key'
        · simp [insert, get?, hkey]
        · cases htable : t.contextual.get? c <;>
            simp [insert, get?, hkey, Ne.symm hkey, htable]
      · simp [insert, get?, hc, Ne.symm hc]

theorem ofLeaves_concat (ls : List Leaf) (l : Leaf) :
    ofLeaves (ls ++ [l]) = (ofLeaves ls).insert l.key l.context l.value := by
  rw [ofLeaves, List.foldl_append, List.foldl_cons, List.foldl_nil, ← ofLeaves]

/-- The last leaf of a slot counts. -/
theorem get?_ofLeaves (ls : List Leaf) (key : String) (context : Option String) :
    (ofLeaves ls).get? key context =
      (ls.reverse.find? (·.slot = (key, context))).map Leaf.value := by
  induction ls using List.reverseRecOn with
  | nil => cases context <;> rfl
  | append_singleton ls l ih =>
    rw [ofLeaves_concat, get?_insert, ih, List.reverse_append, List.reverse_singleton,
      List.singleton_append, List.find?_cons]
    by_cases hslot : l.slot = (key, context)
    · have hpair : (l.key, l.context) = (key, context) := hslot
      simp [hslot, hpair]
    · have hpair : (l.key, l.context) ≠ (key, context) := hslot
      simp [hslot, hpair]

theorem isSome_get?_ofLeaves :
    ((ofLeaves ls).get? key context).isSome = true ↔ (key, context) ∈ ls.map Leaf.slot := by
  rw [get?_ofLeaves, Option.isSome_map, List.find?_isSome, List.mem_map]
  simp

theorem mem_contexts_insert {value : Literal} {c : String} :
    c ∈ (t.insert key context value).contexts ↔ context = some c ∨ c ∈ t.contexts := by
  cases context with
  | none => simp [insert, contexts]
  | some c' =>
    rw [insert, contexts, contexts, Table.mem_keys, Table.mem_keys, Table.get?_insert]
    by_cases hc : c = c'
    · simp [hc]
    · simp [hc, Ne.symm hc]

/-- A theme has the contexts that its leaves are for. -/
theorem mem_contexts_ofLeaves {c : String} :
    c ∈ (ofLeaves ls).contexts ↔ some c ∈ ls.map Leaf.context := by
  induction ls using List.reverseRecOn with
  | nil => simp [ofLeaves, empty, contexts, Table.keys, Table.empty]
  | append_singleton ls l ih =>
    rw [ofLeaves_concat, mem_contexts_insert, ih, List.map_append, List.mem_append, or_comm]
    simp [eq_comm]

/-- No value is lost of leaves that have slots of their own. -/
theorem get?_ofLeaves_of_mem (h : (ls.map Leaf.slot).Nodup) {l : Leaf} (hl : l ∈ ls) :
    (ofLeaves ls).get? l.key l.context = some l.value := by
  obtain ⟨l', hfind⟩ := Option.isSome_iff_exists.1
    (List.find?_isSome.2 ⟨l, List.mem_reverse.2 hl, decide_eq_true rfl⟩ :
      (ls.reverse.find? (·.slot = (l.key, l.context))).isSome = true)
  have hslot : l'.slot = (l.key, l.context) := by simpa using List.find?_some hfind
  have hmem : l' ∈ ls := List.mem_reverse.1 (List.mem_of_find?_eq_some hfind)
  rw [get?_ofLeaves, hfind, List.inj_on_of_nodup_map h hmem hl hslot]
  rfl

/-! ## Counting -/

/-- The slots that have a value. -/
def slots (t : Theme) : List Slot :=
  t.contextless.keys.map (·, none) ++
    t.contextual.entries.flatMap fun e => e.2.keys.map (·, some e.1)

theorem length_slots (t : Theme) : t.slots.length = t.keyCount := by
  rw [slots, keyCount, List.length_append, List.length_map, Table.keys, List.length_map, Table.size]
  congr 1
  induction t.contextual.entries with
  | nil => rfl
  | cons e es ih =>
    rw [List.flatMap_cons, List.length_append, List.length_map, ih, List.foldr_cons, Table.keys,
      List.length_map, Table.size]

theorem mem_slots : (key, context) ∈ t.slots ↔ (t.get? key context).isSome = true := by
  rw [slots, List.mem_append, List.mem_map, List.mem_flatMap]
  cases context with
  | none =>
    rw [get?, ← Table.mem_keys]
    simp
  | some c =>
    rw [get?]
    constructor
    · rintro (⟨k, -, hk⟩ | ⟨e, he, hmem⟩)
      · simp at hk
      · obtain ⟨k, hk, heq⟩ := List.mem_map.1 hmem
        obtain ⟨rfl, hc⟩ := Prod.mk.inj heq
        obtain rfl := Option.some.inj hc
        have htable : t.contextual.get? e.1 = some e.2 := Table.get?_eq_some.2 he
        rw [htable, Option.bind_some]
        exact Table.mem_keys.1 hk
    · intro h
      cases htable : t.contextual.get? c with
      | none => simp [htable] at h
      | some table =>
        rw [htable, Option.bind_some] at h
        refine .inr ⟨(c, table), Table.get?_eq_some.1 htable, ?_⟩
        exact List.mem_map.2 ⟨key, Table.mem_keys.2 h, rfl⟩

theorem nodup_slots (t : Theme) : t.slots.Nodup := by
  have hkeys : ∀ (table : Table Literal) (context : Option String),
      (table.keys.map fun key => (key, context)).Nodup := fun table context =>
    table.distinctKeys_entries.map fun _ _ h => (Prod.mk.inj h).1
  rw [slots, List.nodup_append]
  refine ⟨hkeys _ none, ?_, ?_⟩
  · rw [List.nodup_flatMap]
    refine ⟨fun e _ => hkeys e.2 (some e.1), ?_⟩
    refine (List.pairwise_map.1 t.contextual.distinctKeys_entries).imp fun {e e'} hne => ?_
    intro slot he he'
    obtain ⟨k, -, rfl⟩ := List.mem_map.1 he
    obtain ⟨k', -, heq⟩ := List.mem_map.1 he'
    exact hne (Option.some.inj (Prod.mk.inj heq).2).symm
  · rintro slot hslot _ hslot' rfl
    obtain ⟨k, -, rfl⟩ := List.mem_map.1 hslot
    obtain ⟨e, -, hmem⟩ := List.mem_flatMap.1 hslot'
    obtain ⟨k', -, heq⟩ := List.mem_map.1 hmem
    simp at heq

/-- A theme has as many values as its leaves have slots. -/
theorem keyCount_ofLeaves (ls : List Leaf) :
    (ofLeaves ls).keyCount = (ls.map Leaf.slot).dedup.length := by
  rw [← length_slots]
  refine ((List.perm_ext_iff_of_nodup (nodup_slots _) (List.nodup_dedup _)).2 ?_).length_eq
  rintro ⟨key, context⟩
  rw [mem_slots, isSome_get?_ofLeaves, List.mem_dedup]

/-- A value is lost exactly if two leaves have one slot. -/
theorem keyCount_ofLeaves_eq_length :
    (ofLeaves ls).keyCount = ls.length ↔ (ls.map Leaf.slot).Nodup := by
  rw [keyCount_ofLeaves, ← List.dedup_eq_self]
  constructor
  · intro hlength
    rw [← List.length_map (f := Leaf.slot)] at hlength
    exact (List.dedup_sublist _).eq_of_length hlength
  · intro hdedup
    rw [hdedup, List.length_map]

end CssTheming.Theme
