import CssTheming.Fallback
import Mathlib.Data.List.Basic
import Mathlib.Data.List.Induction

/-!
# Rules grouped by selector

Declarations that are put one after the other into the rules of their selectors leave one rule for
each selector and in it one declaration for each property, in the order in which these came up
first. Both come from the same way of filling a list: each entry goes into the item with its key, or
into a new one at the end.
-/

namespace CssTheming.Fallback

section FirstSeen

variable {κ : Type} [DecidableEq κ] {l : List κ}

theorem eraseDups_concat (l : List κ) (a : κ) :
    (l ++ [a]).eraseDups = if a ∈ l then l.eraseDups else l.eraseDups ++ [a] := by
  rw [List.eraseDups_append]
  by_cases ha : a ∈ l <;> simp [ha, List.removeAll, List.eraseDups_cons]

/-- What is left without repetitions stands in the order in which it came up first. -/
theorem pairwise_idxOf_eraseDups (l : List κ) :
    l.eraseDups.Pairwise fun a b => l.idxOf a < l.idxOf b := by
  induction l using List.reverseRecOn with
  | nil => simp
  | append_singleton l a ih =>
    have hfront : l.eraseDups.Pairwise fun b c => (l ++ [a]).idxOf b < (l ++ [a]).idxOf c := by
      refine ih.imp_of_mem fun hb hc hlt => ?_
      rwa [List.idxOf_append_of_mem (List.mem_eraseDups.1 hb),
        List.idxOf_append_of_mem (List.mem_eraseDups.1 hc)]
    rw [eraseDups_concat]
    split
    · exact hfront
    · rename_i ha
      refine List.pairwise_append.2 ⟨hfront, List.pairwise_singleton _ _, fun b hb c hc => ?_⟩
      obtain rfl := List.mem_singleton.1 hc
      have hb := List.mem_eraseDups.1 hb
      rw [List.idxOf_append_of_mem hb, List.idxOf_append_of_notMem ha]
      exact Nat.lt_add_right _ (List.idxOf_lt_length_iff.2 hb)

theorem nodup_eraseDups (l : List κ) : l.eraseDups.Nodup := by
  refine (pairwise_idxOf_eraseDups l).imp fun hlt => ?_
  rintro rfl
  exact Nat.lt_irrefl _ hlt

theorem eraseDups_append_of_disjoint {l m : List κ} (h : l.Disjoint m) :
    (l ++ m).eraseDups = l.eraseDups ++ m.eraseDups := by
  rw [List.eraseDups_append]
  congr 2
  refine List.filter_eq_self.2 fun a ha => ?_
  simpa using fun hl => h hl ha

theorem eraseDups_map_of_injective {ι : Type} [DecidableEq ι] {f : ι → κ}
    (hf : Function.Injective f) (l : List ι) : (l.map f).eraseDups = l.eraseDups.map f := by
  induction l using List.reverseRecOn with
  | nil => rfl
  | append_singleton l a ih =>
    have hmem : f a ∈ l.map f ↔ a ∈ l := List.mem_map_of_injective hf
    rw [List.map_append, List.map_singleton, eraseDups_concat, eraseDups_concat, ih]
    by_cases ha : a ∈ l
    · rw [if_pos (hmem.2 ha), if_pos ha]
    · rw [if_neg (mt hmem.1 ha), if_neg ha, List.map_append, List.map_singleton]

end FirstSeen

section Put

variable {α ε κ : Type} {keyOf : α → κ} {item : κ → α}

theorem keyOf_foldl {change : ε → α → α} (hchange : ∀ e a, keyOf (change e a) = keyOf a)
    (entries : List ε) (a : α) : keyOf (entries.foldl (fun a e => change e a) a) = keyOf a := by
  induction entries generalizing a with
  | nil => rfl
  | cons e entries ih => rw [List.foldl_cons, ih, hchange]

variable [DecidableEq κ]

/-- Changes the item with a key, or adds a new one at the end. -/
def put (keyOf : α → κ) (key : κ) (new : α) (change : α → α) : List α → List α
  | [] => [new]
  | a :: as => if keyOf a = key then change a :: as else a :: put keyOf key new change as

theorem put_map {keys : List κ} (hkey : ∀ k, keyOf (item k) = k) (hkeys : keys.Nodup) (key : κ)
    (new : α) (change : α → α) :
    put keyOf key new change (keys.map item) =
      if key ∈ keys then keys.map (Function.update item key (change (item key)))
      else keys.map item ++ [new] := by
  induction keys with
  | nil => simp [put]
  | cons k keys ih =>
    obtain ⟨hk, hkeys⟩ := List.nodup_cons.1 hkeys
    rw [List.map_cons, put, hkey]
    by_cases heq : k = key
    · subst heq
      have hothers : keys.map (Function.update item k (change (item k))) = keys.map item := by
        refine List.map_congr_left fun k' hk' => Function.update_of_ne ?_ _ _
        rintro rfl
        exact hk hk'
      rw [if_pos rfl, if_pos List.mem_cons_self, List.map_cons, Function.update_self, hothers]
    · have hmem : key ∈ k :: keys ↔ key ∈ keys := by simp [Ne.symm heq]
      rw [if_neg heq, ih hkeys]
      simp only [hmem]
      split
      · rw [List.map_cons, Function.update_of_ne heq]
      · rfl

/-- Each key has one item, in which the entries with the key were put one after the other. -/
theorem foldl_put_eq (keyOf : α → κ) (entryKey : ε → κ) (blank : κ → α) (change : ε → α → α)
    (hblank : ∀ k, keyOf (blank k) = k) (hchange : ∀ e a, keyOf (change e a) = keyOf a)
    (entries : List ε) :
    entries.foldl (fun as e => put keyOf (entryKey e) (change e (blank (entryKey e))) (change e) as)
        [] =
      (entries.map entryKey).eraseDups.map fun k =>
        (entries.filter (entryKey · = k)).foldl (fun a e => change e a) (blank k) := by
  induction entries using List.reverseRecOn with
  | nil => rfl
  | append_singleton entries e ih =>
    have hkey : ∀ k, keyOf ((entries.filter (entryKey · = k)).foldl (fun a e => change e a)
        (blank k)) = k := fun k => (keyOf_foldl hchange _ _).trans (hblank k)
    rw [List.foldl_append, List.foldl_cons, List.foldl_nil, ih,
      put_map hkey (nodup_eraseDups _), List.map_append, List.map_singleton, eraseDups_concat]
    simp only [List.mem_eraseDups]
    split
    · apply List.map_congr_left
      intro k hk
      by_cases heq : k = entryKey e
      · subst heq
        simp
      · simp [Function.update_of_ne heq, Ne.symm heq]
    · rename_i hnew
      rw [List.map_append, List.map_singleton]
      congr 1
      · apply List.map_congr_left
        intro k hk
        have hne : entryKey e ≠ k := by
          rintro rfl
          exact hnew (List.mem_eraseDups.1 hk)
        simp [hne]
      · have hnone : entries.filter (entryKey · = entryKey e) = [] := by
          refine List.filter_eq_nil_iff.2 fun e' he' heq => hnew ?_
          exact List.mem_map.2 ⟨e', he', of_decide_eq_true heq⟩
        simp [hnone]

end Put

/-! ## Rules -/

theorem setDeclaration_eq (property value : String) (ds : List (String × String)) :
    setDeclaration property value ds =
      put Prod.fst property (property, value) (fun d => (d.1, value)) ds := by
  induction ds with
  | nil => rfl
  | cons d ds ih =>
    rw [setDeclaration, put, ih]
    split
    · rename_i h
      rw [h]
    · rfl

def Block.setDeclaration (b : Block) (property value : String) : Block :=
  { b with declarations := Fallback.setDeclaration property value b.declarations }

theorem set_eq (selector property value : String) (bs : List Block) :
    set selector property value bs =
      put Block.selector selector (Block.setDeclaration ⟨selector, []⟩ property value)
        (fun b => b.setDeclaration property value) bs := by
  induction bs with
  | nil => rfl
  | cons b bs ih =>
    rw [set, put, ih]
    rfl

/-- A declaration for the rule of a selector. -/
structure Entry where
  selector : String
  property : String
  value : String

/-- Sets declarations one after the other. -/
def setAll (blocks : List Block) (entries : List Entry) : List Block :=
  entries.foldl (fun bs e => set e.selector e.property e.value bs) blocks

/-- The rules of some declarations. -/
def collect (entries : List Entry) : List Block := setAll [] entries

theorem setAll_append (blocks : List Block) (es fs : List Entry) :
    setAll blocks (es ++ fs) = setAll (setAll blocks es) fs := List.foldl_append

/-- Each property once, in the order in which the properties came up first, with its last value. -/
def declarationsOf (entries : List Entry) : List (String × String) :=
  (entries.map (·.property)).eraseDups.map fun p =>
    (p, ((entries.filter (·.property = p)).map (·.value)).getLastD "")

theorem foldl_setDeclaration (entries : List Entry) :
    entries.foldl (fun ds e => setDeclaration e.property e.value ds) [] =
      declarationsOf entries := by
  have hvalue (values : List Entry) (p v : String) :
      values.foldl (fun d e => (d.1, e.value)) (p, v) = (p, (values.map (·.value)).getLastD v) := by
    induction values using List.reverseRecOn with
    | nil => rfl
    | append_singleton values e ih => simp [ih]
  simp only [setDeclaration_eq]
  rw [foldl_put_eq Prod.fst Entry.property (fun p => (p, "")) (fun e d => (d.1, e.value))
    (fun _ => rfl) (fun _ _ => rfl)]
  simp only [hvalue]
  rfl

theorem foldl_block (entries : List Entry) (b : Block) :
    entries.foldl (fun b e => b.setDeclaration e.property e.value) b =
      ⟨b.selector, entries.foldl (fun ds e => setDeclaration e.property e.value ds)
        b.declarations⟩ := by
  induction entries generalizing b with
  | nil => rfl
  | cons e entries ih => exact ih _

/-- One rule for each selector, in the order in which the selectors came up first. -/
theorem collect_eq (entries : List Entry) :
    collect entries = (entries.map (·.selector)).eraseDups.map fun selector =>
      ⟨selector, declarationsOf (entries.filter (·.selector = selector))⟩ := by
  simp only [collect, setAll, set_eq]
  rw [foldl_put_eq Block.selector Entry.selector (fun s => ⟨s, []⟩)
    (fun e b => b.setDeclaration e.property e.value) (fun _ => rfl) (fun _ _ => rfl)]
  simp only [foldl_block, foldl_setDeclaration]

/-- Entries for other selectors are put into rules of their own. -/
theorem collect_append {es fs : List Entry}
    (h : (es.map (·.selector)).Disjoint (fs.map (·.selector))) :
    collect (es ++ fs) = collect es ++ collect fs := by
  have hfilter {fs : List Entry} {selector : String}
      (hnotin : selector ∉ fs.map (·.selector)) :
      fs.filter (·.selector = selector) = [] := by
    refine List.filter_eq_nil_iff.2 fun e he heq => hnotin ?_
    exact List.mem_map.2 ⟨e, he, of_decide_eq_true heq⟩
  rw [collect_eq, List.map_append, eraseDups_append_of_disjoint h, List.map_append, collect_eq,
    collect_eq]
  congr 1 <;> refine List.map_congr_left fun selector hselector => ?_
  · have hnotin : selector ∉ fs.map (·.selector) := fun hmem =>
      h (List.mem_eraseDups.1 hselector) hmem
    rw [List.filter_append, hfilter hnotin, List.append_nil]
  · have hnotin : selector ∉ es.map (·.selector) := fun hmem =>
      h hmem (List.mem_eraseDups.1 hselector)
    rw [List.filter_append, hfilter hnotin, List.nil_append]

/-- A rule for a selector with a property comes from a declaration for both. -/
theorem exists_mem_collect_iff {entries : List Entry} {selector property : String} :
    (∃ b ∈ collect entries, b.selector = selector ∧ ∃ value, (property, value) ∈ b.declarations) ↔
      ∃ e ∈ entries, e.selector = selector ∧ e.property = property := by
  have hdeclared (es : List Entry) :
      (∃ value, (property, value) ∈ declarationsOf es) ↔ ∃ e ∈ es, e.property = property := by
    simp [declarationsOf]
  rw [collect_eq]
  constructor
  · rintro ⟨b, hb, rfl, hproperty⟩
    obtain ⟨selector, -, rfl⟩ := List.mem_map.1 hb
    obtain ⟨e, he, hproperty⟩ := (hdeclared _).1 hproperty
    obtain ⟨he, hselector⟩ := List.mem_filter.1 he
    exact ⟨e, he, of_decide_eq_true hselector, hproperty⟩
  · rintro ⟨e, he, rfl, hproperty⟩
    refine ⟨_, List.mem_map_of_mem (List.mem_eraseDups.2 (List.mem_map_of_mem he)), rfl, ?_⟩
    exact (hdeclared _).2 ⟨e, List.mem_filter.2 ⟨he, decide_eq_true rfl⟩, hproperty⟩

end CssTheming.Fallback
