import CssTheming.Proofs.Text.Lexeme
import CssTheming.Table
import Mathlib.Data.List.Nodup

/-!
# What is in a table

With distinct keys a look-up is membership, in the entries of a table and in a list that a table is
made of. So tables that are made of one another's entries under other names are compared entry by
entry.
-/

namespace CssTheming.Table

variable {α β : Type}

/-! ## Look-ups and membership -/

/-- No key occurs twice. -/
def DistinctKeys (l : List (String × α)) : Prop := (l.map (·.1)).Nodup

theorem distinctKeys_entries (t : Table α) : DistinctKeys t.entries := by
  have hne : t.entries.Pairwise (fun a b => a.1 ≠ b.1) := by
    refine t.sorted.imp fun {a b} hlt heq => ?_
    rw [heq] at hlt
    exact String.lt_irrefl _ hlt
  exact List.pairwise_map.2 hne

theorem lookupEntry_eq_some {l : List (String × α)} (hl : DistinctKeys l) {key : String}
    {value : α} : lookupEntry key l = some value ↔ (key, value) ∈ l := by
  induction l with
  | nil => simp [lookupEntry]
  | cons e r ih =>
    obtain ⟨hnotin, hr⟩ := List.nodup_cons.1 hl
    rw [lookupEntry]
    split
    · rename_i heq
      constructor
      · intro h
        obtain rfl := Option.some.inj h
        rw [heq]
        exact List.mem_cons_self
      · intro h
        rcases List.mem_cons.1 h with rfl | h
        · rfl
        · exact absurd (List.mem_map.2 ⟨(key, value), h, heq⟩) hnotin
    · rename_i hne
      rw [ih hr, List.mem_cons]
      refine ⟨.inr, fun h => h.resolve_left ?_⟩
      rintro rfl
      exact hne rfl

theorem get?_eq_some {t : Table α} {key : String} {value : α} :
    t.get? key = some value ↔ (key, value) ∈ t.entries :=
  lookupEntry_eq_some t.distinctKeys_entries

theorem mem_keys {t : Table α} {key : String} : key ∈ t.keys ↔ (t.get? key).isSome = true := by
  simp only [keys, List.mem_map, Prod.exists, exists_and_right, exists_eq_right,
    Option.isSome_iff_exists, get?_eq_some]

theorem lookupEntry_append (key : String) (l m : List (String × α)) :
    lookupEntry key (l ++ m) = (lookupEntry key l).or (lookupEntry key m) := by
  induction l with
  | nil => rfl
  | cons e r ih =>
    rw [List.cons_append, lookupEntry, lookupEntry]
    split
    · rfl
    · exact ih

/-- The last entry with a key counts, or what the table had. -/
theorem get?_insertAll (t : Table α) (l : List (String × α)) (key : String) :
    (t.insertAll l).get? key = (lookupEntry key l.reverse).or (t.get? key) := by
  induction l generalizing t with
  | nil => rfl
  | cons e r ih =>
    have hstep := ih (t.insert e.1 e.2)
    rw [insertAll, List.foldl_cons, ← insertAll, hstep, get?_insert, List.reverse_cons,
      lookupEntry_append, Option.or_assoc, lookupEntry]
    split <;> rfl

theorem distinctKeys_reverse {l : List (String × α)} (hl : DistinctKeys l) :
    DistinctKeys l.reverse := by
  rw [DistinctKeys, List.map_reverse]
  exact List.nodup_reverse.2 hl

/-- A table that is put over another one. -/
theorem get?_insertAll_entries (t u : Table α) (key : String) :
    (t.insertAll u.entries).get? key = (u.get? key).or (t.get? key) := by
  have hreverse : lookupEntry key u.entries.reverse = u.get? key := by
    ext value
    rw [lookupEntry_eq_some (distinctKeys_reverse u.distinctKeys_entries), List.mem_reverse,
      get?_eq_some]
  rw [get?_insertAll, hreverse]

/-- Of tables that are put over one another the last that has a key counts. -/
theorem get?_foldl_insertAll (tables : List (Table α)) (t : Table α) (key : String) :
    (tables.foldl (fun t u => t.insertAll u.entries) t).get? key =
      (tables.reverse.findSome? (·.get? key)).or (t.get? key) := by
  induction tables generalizing t with
  | nil => rfl
  | cons u tables ih =>
    rw [List.foldl_cons, ih, get?_insertAll_entries, List.reverse_cons, List.findSome?_append,
      Option.or_assoc, List.findSome?_singleton]

theorem get?_ofList {l : List (String × α)} (hl : DistinctKeys l) {key : String} {value : α} :
    (ofList l).get? key = some value ↔ (key, value) ∈ l := by
  rw [ofList, get?_insertAll, get?_empty, Option.or_none,
    lookupEntry_eq_some (distinctKeys_reverse hl), List.mem_reverse]

/-! ## Entries under other names -/

theorem get?_map (f : α → β) (t : Table α) (key : String) :
    (t.map f).get? key = (t.get? key).map f := by
  ext value
  rw [get?_eq_some, Option.map_eq_some_iff, map, List.mem_map]
  constructor
  · rintro ⟨⟨key', a⟩, ha, he⟩
    obtain ⟨rfl, rfl⟩ := Prod.mk.inj he
    exact ⟨a, get?_eq_some.2 ha, rfl⟩
  · rintro ⟨a, ha, rfl⟩
    exact ⟨(key, a), get?_eq_some.1 ha, rfl⟩

/-- The entries of a table, with something in front of their keys. -/
def prefixed (start : String) (f : α → β) (t : Table α) : List (String × β) :=
  t.entries.map fun e => (start ++ e.1, f e.2)

theorem append_inj_right {start a b : String} (h : start ++ a = start ++ b) : a = b := by
  rw [← String.toList_inj, String.toList_append, String.toList_append] at h
  exact String.toList_inj.1 (List.append_cancel_left h)

theorem distinctKeys_prefixed (start : String) (f : α → β) (t : Table α) :
    DistinctKeys (t.prefixed start f) := by
  have hkeys : (t.prefixed start f).map (·.1) = (t.entries.map (·.1)).map (start ++ ·) := by
    simp [prefixed]
  rw [DistinctKeys, hkeys]
  exact t.distinctKeys_entries.map fun _ _ => append_inj_right

theorem get?_ofList_prefixed (start : String) (f : α → β) (t : Table α) (key : String) :
    (ofList (t.prefixed start f)).get? (start ++ key) = (t.get? key).map f := by
  ext value
  rw [get?_ofList (t.distinctKeys_prefixed start f), Option.map_eq_some_iff, prefixed, List.mem_map]
  constructor
  · rintro ⟨⟨key', a⟩, ha, he⟩
    obtain ⟨hkey, rfl⟩ := Prod.mk.inj he
    obtain rfl := append_inj_right hkey
    exact ⟨a, get?_eq_some.2 ha, rfl⟩
  · rintro ⟨a, ha, rfl⟩
    exact ⟨(key, a), get?_eq_some.1 ha, rfl⟩

/-- The entries whose keys begin with something, without it. -/
def stripped (start : String) (f : α → β) (t : Table α) : List (String × β) :=
  t.entries.filterMap fun e => (Text.stripStart? start e.1).map fun key => (key, f e.2)

theorem mem_stripped {start : String} {f : α → β} {t : Table α} {key : String} {value : β} :
    (key, value) ∈ t.stripped start f ↔ ∃ a, t.get? (start ++ key) = some a ∧ f a = value := by
  simp only [stripped, List.mem_filterMap, Option.map_eq_some_iff, Text.stripStart?_eq_some]
  constructor
  · rintro ⟨⟨name, a⟩, ha, key', hname, he⟩
    obtain ⟨rfl, rfl⟩ := Prod.mk.inj he
    exact ⟨a, get?_eq_some.2 (hname ▸ ha), rfl⟩
  · rintro ⟨a, ha, rfl⟩
    exact ⟨(start ++ key, a), get?_eq_some.1 ha, key, rfl, rfl⟩

theorem distinctKeys_stripped (start : String) (f : α → β) (t : Table α) :
    DistinctKeys (t.stripped start f) := by
  have hne : t.entries.Pairwise (fun a b => a.1 ≠ b.1) :=
    List.pairwise_map.1 t.distinctKeys_entries
  rw [DistinctKeys, List.Nodup, List.pairwise_map, stripped, List.pairwise_filterMap]
  refine hne.imp fun {e e'} h b hb b' hb' => ?_
  obtain ⟨key, hkey, rfl⟩ := Option.map_eq_some_iff.1 hb
  obtain ⟨key', hkey', rfl⟩ := Option.map_eq_some_iff.1 hb'
  rw [Text.stripStart?_eq_some] at hkey hkey'
  rintro rfl
  exact h (hkey.trans hkey'.symm)

theorem get?_ofList_stripped (start : String) (f : α → β) (t : Table α) (key : String) :
    (ofList (t.stripped start f)).get? key = (t.get? (start ++ key)).map f := by
  ext value
  rw [get?_ofList (t.distinctKeys_stripped start f), mem_stripped, Option.map_eq_some_iff]

end CssTheming.Table
