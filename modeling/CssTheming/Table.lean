/-!
# Tables

Finite maps from text keys, kept in key order (by code point). A table is determined by its look-ups
(`Table.ext_get?`), so two tables with the same content are equal.
-/

namespace CssTheming

structure Table (α : Type) where
  entries : List (String × α)
  sorted : entries.Pairwise (fun a b => a.1 < b.1)

namespace Table

variable {α β : Type}

def empty : Table α := ⟨[], .nil⟩

instance : Inhabited (Table α) := ⟨empty⟩

instance [DecidableEq α] : DecidableEq (Table α) := fun s t =>
  decidable_of_iff (s.entries = t.entries) ⟨fun h => by cases s; cases t; simpa using h, fun h => h ▸ rfl⟩

def insertEntry (key : String) (value : α) : List (String × α) → List (String × α)
  | [] => [(key, value)]
  | e :: r =>
    if key < e.1 then (key, value) :: e :: r
    else if key = e.1 then (key, value) :: r
    else e :: insertEntry key value r

theorem mem_insertEntry {key : String} {value : α} {l : List (String × α)} {e : String × α}
    (h : e ∈ insertEntry key value l) : e = (key, value) ∨ e ∈ l := by
  induction l with
  | nil => simpa [insertEntry] using h
  | cons a r ih => unfold insertEntry at h; grind

theorem sorted_insertEntry (key : String) (value : α) {l : List (String × α)}
    (h : l.Pairwise (fun a b => a.1 < b.1)) : (insertEntry key value l).Pairwise (fun a b => a.1 < b.1) := by
  induction l with
  | nil => simp [insertEntry]
  | cons a r ih =>
    rw [List.pairwise_cons] at h
    unfold insertEntry
    split
    · rename_i hlt
      refine List.pairwise_cons.2 ⟨fun e he => ?_, List.pairwise_cons.2 h⟩
      rcases List.mem_cons.1 he with rfl | he
      · exact hlt
      · exact String.lt_trans hlt (h.1 e he)
    · split
      · rename_i heq
        exact List.pairwise_cons.2 ⟨fun e he => heq ▸ h.1 e he, h.2⟩
      · rename_i hlt hne
        refine List.pairwise_cons.2 ⟨fun e he => ?_, ih h.2⟩
        rcases mem_insertEntry he with rfl | he
        · exact Decidable.byContradiction fun hn =>
            hne (String.le_antisymm (String.not_lt.1 hn) (String.not_lt.1 hlt))
        · exact h.1 e he

/-- Puts a value at a key, in place of the one that is there. -/
def insert (t : Table α) (key : String) (value : α) : Table α :=
  ⟨insertEntry key value t.entries, sorted_insertEntry key value t.sorted⟩

def lookupEntry (key : String) : List (String × α) → Option α
  | [] => none
  | e :: r => if key = e.1 then some e.2 else lookupEntry key r

def get? (t : Table α) (key : String) : Option α := lookupEntry key t.entries

def contains (t : Table α) (key : String) : Bool := (t.get? key).isSome

def keys (t : Table α) : List String := t.entries.map (·.1)

def size (t : Table α) : Nat := t.entries.length

/-- The entries in turn, a later one in place of an earlier one with its key. -/
def insertAll (t : Table α) (entries : List (String × α)) : Table α :=
  entries.foldl (fun t e => t.insert e.1 e.2) t

def ofList (entries : List (String × α)) : Table α := empty.insertAll entries

def map (f : α → β) (t : Table α) : Table β :=
  ⟨t.entries.map fun e => (e.1, f e.2), List.pairwise_map.2 t.sorted⟩

@[simp] theorem get?_empty (key : String) : (empty : Table α).get? key = none := rfl

theorem lookupEntry_insertEntry (key key' : String) (value : α) (l : List (String × α)) :
    lookupEntry key' (insertEntry key value l) = if key' = key then some value else lookupEntry key' l := by
  induction l with
  | nil => simp [insertEntry, lookupEntry]
  | cons a r ih => grind [insertEntry, lookupEntry]

@[simp] theorem get?_insert (t : Table α) (key key' : String) (value : α) :
    (t.insert key value).get? key' = if key' = key then some value else t.get? key' :=
  lookupEntry_insertEntry key key' value t.entries

theorem lookupEntry_eq_none_of_lt {l : List (String × α)} {key : String} (h : ∀ e ∈ l, key < e.1) :
    lookupEntry key l = none := by
  induction l with
  | nil => rfl
  | cons a r ih =>
    have hne : key ≠ a.1 := fun e => String.lt_irrefl _ (e ▸ h a (by simp))
    rw [lookupEntry, if_neg hne]
    exact ih fun e he => h e (by simp [he])

theorem not_lt_head {a b : String × α} {r s : List (String × α)} (hm : (b :: s).Pairwise (fun a b => a.1 < b.1))
    (h : lookupEntry a.1 (a :: r) = lookupEntry a.1 (b :: s)) : ¬ a.1 < b.1 := fun hlt => by
  rw [List.pairwise_cons] at hm
  rw [lookupEntry_eq_none_of_lt (l := b :: s)] at h
  · simp [lookupEntry] at h
  · intro e he
    rcases List.mem_cons.1 he with rfl | he
    · exact hlt
    · exact String.lt_trans hlt (hm.1 e he)

theorem entries_eq_of_lookupEntry {l m : List (String × α)} (hl : l.Pairwise (fun a b => a.1 < b.1))
    (hm : m.Pairwise (fun a b => a.1 < b.1)) (h : ∀ key, lookupEntry key l = lookupEntry key m) : l = m := by
  induction l generalizing m with
  | nil =>
    cases m with
    | nil => rfl
    | cons b s => have := h b.1; simp [lookupEntry] at this
  | cons a r ih =>
    cases m with
    | nil => have := h a.1; simp [lookupEntry] at this
    | cons b s =>
      have hkey : a.1 = b.1 := String.le_antisymm (String.not_lt.1 (not_lt_head hl (h b.1).symm))
        (String.not_lt.1 (not_lt_head hm (h a.1)))
      have hval : a.2 = b.2 := by simpa [lookupEntry, hkey] using h a.1
      rw [List.pairwise_cons] at hl hm
      have htail : r = s := ih hl.2 hm.2 fun key => by
        by_cases hk : key = a.1
        · rw [lookupEntry_eq_none_of_lt fun e he => hk ▸ hl.1 e he,
            lookupEntry_eq_none_of_lt fun e he => hk ▸ hkey ▸ hm.1 e he]
        · simpa [lookupEntry, hk, hkey ▸ hk] using h key
      rw [htail, Prod.ext hkey hval]

theorem ext_get? {s t : Table α} (h : ∀ key, s.get? key = t.get? key) : s = t := by
  obtain ⟨l, hl⟩ := s
  obtain ⟨m, hm⟩ := t
  obtain rfl : l = m := entries_eq_of_lookupEntry hl hm h
  rfl

end Table

end CssTheming
