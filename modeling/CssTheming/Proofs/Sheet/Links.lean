import CssTheming.Proofs.Sheet.Tree
import Mathlib.Data.List.Basic

/-!
# Links between nodes

In a stylesheet that was made by adding nodes, children and parents agree and parents come first.
Going down then visits every node at most once, in the order of the document, and going up ends at
the root.
-/

namespace CssTheming.Sheet

variable {s s' : Sheet} {id c p x : Nat}

/-- Children know their parents, parents their children, and parents have smaller numbers. -/
structure Linked (s : Sheet) : Prop where
  below : ∀ {p c}, c ∈ s.children p → p < c ∧ s.parent? c = some p
  above : ∀ {p c}, s.parent? c = some p → c ∈ s.children p
  nodup : ∀ p, (s.children p).Nodup

theorem lt_size_of_parent? (h : s.parent? c = some p) : c < s.size := by
  rw [parent?, Option.bind_eq_some_iff] at h
  obtain ⟨n, hn, -⟩ := h
  exact (Array.getElem?_eq_some_iff.1 hn).1

theorem exists_kind? (h : id < s.size) : ∃ k, s.kind? id = some k :=
  ⟨_, by rw [kind?, Array.getElem?_eq_getElem h, Option.map_some]⟩

theorem children_of_size_le (h : s.size ≤ id) : s.children id = [] := by
  rw [children, Array.getElem?_eq_none h]
  rfl

theorem Linked.lt_of_parent? (h : s.Linked) (hp : s.parent? c = some p) : p < c :=
  (h.below (h.above hp)).1

theorem Linked.parent?_root (h : s.Linked) : s.parent? root = none := by
  cases hp : s.parent? root with
  | none => rfl
  | some p => exact absurd (h.lt_of_parent? hp) (Nat.not_lt_zero p)

/-! ## Going down -/

theorem Linked.descendants_eq (h : s.Linked) (id : Nat) :
    s.descendants id = (s.children id).flatMap fun c => c :: s.descendants c := by
  rw [descendants]
  apply List.flatMap_congr
  intro c hc
  obtain ⟨hlt, hp⟩ := h.below hc
  rw [if_pos ⟨hlt, lt_size_of_parent? hp⟩]

/-- What holds of a node if it holds of its children holds of all nodes. -/
theorem Linked.induction (h : s.Linked) {motive : Nat → Prop}
    (step : ∀ id, (∀ c ∈ s.children id, motive c) → motive id)
    (id : Nat) : motive id := by
  induction hk : s.size - id using Nat.strongRecOn generalizing id with
  | ind k ih =>
    apply step
    intro c hc
    obtain ⟨hlt, hp⟩ := h.below hc
    have := lt_size_of_parent? hp
    exact ih (s.size - c) (by omega) c rfl

theorem Linked.mem_descendants_iff (h : s.Linked) :
    x ∈ s.descendants id ↔ ∃ c ∈ s.children id, x = c ∨ x ∈ s.descendants c := by
  rw [h.descendants_eq, List.mem_flatMap]
  simp only [List.mem_cons]

theorem Linked.lt_of_mem_descendants (h : s.Linked) : ∀ {id x}, x ∈ s.descendants id → id < x := by
  intro id
  induction id using h.induction with
  | step id ih =>
    intro x hx
    obtain ⟨c, hc, rfl | hx⟩ := h.mem_descendants_iff.1 hx
    · exact (h.below hc).1
    · exact Nat.lt_trans (h.below hc).1 (ih c hc hx)

/-- A node is below another if its parent is that one or below it. -/
theorem Linked.mem_descendants_parent (h : s.Linked) :
    ∀ {id x}, x ∈ s.descendants id ↔ ∃ p, s.parent? x = some p ∧
      (p = id ∨ p ∈ s.descendants id) := by
  intro id
  induction id using h.induction with
  | step id ih =>
    intro x
    constructor
    · intro hx
      obtain ⟨c, hc, rfl | hx⟩ := h.mem_descendants_iff.1 hx
      · exact ⟨id, (h.below hc).2, .inl rfl⟩
      · obtain ⟨p, hp, hpc⟩ := (ih c hc).1 hx
        exact ⟨p, hp, .inr (h.mem_descendants_iff.2 ⟨c, hc, hpc⟩)⟩
    · rintro ⟨p, hp, rfl | hpid⟩
      · exact h.mem_descendants_iff.2 ⟨x, h.above hp, .inl rfl⟩
      · obtain ⟨c, hc, hpc⟩ := h.mem_descendants_iff.1 hpid
        exact h.mem_descendants_iff.2 ⟨c, hc, .inr ((ih c hc).2 ⟨p, hp, hpc⟩)⟩

theorem exists_kind?_of_mem_descendants (hs : s.Linked) (h : id ∈ s.descendants p) :
    ∃ k, s.kind? id = some k := by
  obtain ⟨q, hq, -⟩ := hs.mem_descendants_parent.1 h
  exact exists_kind? (lt_size_of_parent? hq)

theorem mem_atRulesNamed {name : String} {k : Kind} (hk : s.kind? id = some k) :
    id ∈ s.atRulesNamed p name ↔ id ∈ s.descendants p ∧ k.isAtRuleNamed name = true := by
  rw [atRulesNamed, List.mem_filter, hk, Option.any_some]

theorem exists_of_mem_atRulesNamed {name : String} (h : id ∈ s.atRulesNamed p name) :
    id ∈ s.descendants p ∧ ∃ params hasBlock, s.kind? id = some (.atRule name params hasBlock) := by
  obtain ⟨hid, hnamed⟩ := List.mem_filter.1 h
  obtain ⟨k, hk, hname⟩ := (Option.any_eq_true _ _).1 hnamed
  refine ⟨hid, ?_⟩
  cases k with
  | atRule name' params hasBlock =>
    obtain rfl : name' = name := of_decide_eq_true hname
    exact ⟨params, hasBlock, hk⟩
  | _ => simp [Kind.isAtRuleNamed] at hname

/-- A node is not below two siblings. -/
theorem Linked.sibling_eq (h : s.Linked) {c c' : Nat} (hc : c ∈ s.children id)
    (hc' : c' ∈ s.children id)
    (hx : x = c ∨ x ∈ s.descendants c) (hx' : x = c' ∨ x ∈ s.descendants c') : c = c' := by
  induction x using Nat.strongRecOn with
  | ind x ih =>
    have hnot : ∀ {a b}, a ∈ s.children id → b ∈ s.children id → a ∉ s.descendants b := by
      intro a b ha hb hab
      obtain ⟨p, hp, hpb⟩ := h.mem_descendants_parent.1 hab
      obtain rfl : id = p := Option.some.inj ((h.below ha).2.symm.trans hp)
      rcases hpb with rfl | hpb
      · exact Nat.lt_irrefl _ (h.below hb).1
      · exact Nat.lt_asymm (h.below hb).1 (h.lt_of_mem_descendants hpb)
    rcases hx with rfl | hx
    · rcases hx' with rfl | hx'
      · rfl
      · exact absurd hx' (hnot hc hc')
    · rcases hx' with rfl | hx'
      · exact absurd hx (hnot hc' hc)
      · obtain ⟨p, hp, hpc⟩ := h.mem_descendants_parent.1 hx
        obtain ⟨p', hp', hpc'⟩ := h.mem_descendants_parent.1 hx'
        obtain rfl : p = p' := Option.some.inj (hp.symm.trans hp')
        exact ih p (h.lt_of_parent? hp) hpc hpc'

theorem Linked.nodup_descendants (h : s.Linked) (id : Nat) : (s.descendants id).Nodup := by
  induction id using h.induction with
  | step id ih =>
    rw [h.descendants_eq, List.Nodup, List.pairwise_flatMap]
    refine ⟨fun c hc => ?_, ?_⟩
    · refine List.pairwise_cons.2 ⟨fun x hx => ?_, ih c hc⟩
      exact Nat.ne_of_lt (h.lt_of_mem_descendants hx)
    · refine (h.nodup id).imp_of_mem ?_
      intro c c' hc hc' hne x hx y hy
      rintro rfl
      exact hne (h.sibling_eq hc hc' (List.mem_cons.1 hx) (List.mem_cons.1 hy))

/-! ## Going up -/

theorem Linked.ancestors_eq (h : s.Linked) (x : Nat) :
    s.ancestors x = match s.parent? x with | none => [] | some p => p :: s.ancestors p := by
  rw [ancestors]
  cases hp : s.parent? x with
  | none => rfl
  | some p => exact if_pos (h.lt_of_parent? hp)

/-- Going up from a node leads to the nodes that it is below. -/
theorem Linked.mem_ancestors_iff (h : s.Linked) : id ∈ s.ancestors x ↔ x ∈ s.descendants id := by
  induction x using Nat.strongRecOn with
  | ind x ih =>
    rw [h.ancestors_eq, h.mem_descendants_parent]
    cases hp : s.parent? x with
    | none => simp
    | some p => simp [ih p (h.lt_of_parent? hp), eq_comm]

theorem Linked.nodup_ancestors (h : s.Linked) (x : Nat) : (s.ancestors x).Nodup := by
  induction x using Nat.strongRecOn with
  | ind x ih =>
    rw [h.ancestors_eq]
    cases hp : s.parent? x with
    | none => exact List.nodup_nil
    | some p =>
      refine List.nodup_cons.2 ⟨fun hmem => ?_, ih p (h.lt_of_parent? hp)⟩
      exact Nat.lt_irrefl p (h.lt_of_mem_descendants (h.mem_ancestors_iff.1 hmem))

/-- What is around a node that is around another is around that one, too. -/
theorem Linked.mem_descendants_trans (h : s.Linked) {y : Nat} (hx : x ∈ s.descendants id)
    (hy : y ∈ s.descendants x) :
    y ∈ s.descendants id := by
  induction y using Nat.strongRecOn with
  | ind y ih =>
    obtain ⟨p, hp, hpx⟩ := h.mem_descendants_parent.1 hy
    refine h.mem_descendants_parent.2 ⟨p, hp, .inr ?_⟩
    rcases hpx with rfl | hpx
    · exact hx
    · exact ih p (h.lt_of_parent? hp) hpx

/-- What is around a node, from the outside in, the root apart. -/
def enclosing (s : Sheet) (id : Nat) : List Kind :=
  ((s.ancestors id).reverse.filter (· ≠ root)).filterMap s.kind?

theorem Linked.enclosing_eq (h : s.Linked) (hp : s.parent? id = some p) :
    s.enclosing id = s.enclosing p ++ if p = root then [] else (s.kind? p).toList := by
  rw [enclosing, h.ancestors_eq, hp]
  dsimp only
  rw [List.reverse_cons, List.filter_append, List.filterMap_append]
  congr 1
  by_cases hroot : p = root
  · simp [hroot]
  · cases hk : s.kind? p <;> simp [hroot, hk]

theorem Linked.enclosing_root (h : s.Linked) : s.enclosing root = [] := by
  rw [enclosing, h.ancestors_eq, h.parent?_root]
  rfl

/-- A child of a node at the top has that node alone around it. -/
theorem Linked.enclosing_of_children (h : s.Linked) {k : Kind} (hp : p ∈ s.children root)
    (hk : s.kind? p = some k) (hid : id ∈ s.children p) : s.enclosing id = [k] := by
  have hroot : p ≠ root := Nat.ne_of_gt (h.below hp).1
  rw [h.enclosing_eq (h.below hid).2, h.enclosing_eq (h.below hp).2, h.enclosing_root, if_pos rfl,
    if_neg hroot, hk]
  rfl

/-- A property is declared inside of exactly these nodes. -/
def Declares (s : Sheet) (around : List Kind) (property : String) : Prop :=
  ∃ id ∈ s.declarations root, s.enclosing id = around ∧
    ∃ value important, s.kind? id = some (.declaration property value important)

end CssTheming.Sheet
