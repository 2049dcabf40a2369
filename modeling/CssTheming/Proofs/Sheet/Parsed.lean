import CssTheming.Proofs.Sheet.Changes
import CssTheming.Proofs.Sheet.Formed

/-!
# Parsed stylesheets

A parsed stylesheet has statements only inside of those that show what is inside them.
-/

namespace CssTheming.Sheet

open Statement

/-! ## The statements as nodes -/

/-- A node of such a kind, if there is one, shows what is inside it. -/
def ShowsBody (s : Sheet) (id : Nat) : Prop := ∀ k, s.kind? id = some k → k.showsBody = true

/-- Nodes that do not show what is inside them have no children. -/
def ShowsChildren (s : Sheet) : Prop := ∀ id, s.ShowsBody id ∨ s.children id = []

variable {u : Sheet} {p : Nat}

theorem kind?_append (hp : p < u.size) (kind : Kind) (pos : Text.Position) (i : Nat) :
    (u.append p kind pos).kind? i = if i = u.size then some kind else u.kind? i := by
  rw [kind?, nodes_append, Option.map_map]
  by_cases hsize : i = u.size
  · rw [if_pos hsize, if_pos hsize, hsize]
    simp [Nat.ne_of_gt hp]
  · rw [if_neg hsize, if_neg hsize, kind?]
    congr 1
    funext n
    rw [Function.comp_apply]
    split <;> rfl

theorem ShowsChildren.append (h : u.ShowsChildren) (hp : p < u.size)
    (hbody : u.ShowsBody p) (kind : Kind)
    (pos : Text.Position) : (u.append p kind pos).ShowsChildren := by
  intro i
  rw [ShowsBody, kind?_append hp, children_append hp]
  by_cases hsize : i = u.size
  · refine .inr ?_
    rw [children_of_size_le (Nat.le_of_eq hsize.symm), if_neg (by omega)]
    rfl
  · rw [if_neg hsize]
    by_cases hi : i = p
    · exact .inl (hi ▸ hbody)
    · rw [if_neg hi, List.append_nil]
      exact h i

theorem Grown.showsBody {u' : Sheet} {ids : List Nat} (h : Grown u u' p ids) {i : Nat}
    (hi : i < u.size)
    (hbody : u.ShowsBody i) : u'.ShowsBody i := by
  intro k hk
  apply hbody k
  rw [← hk, kind?, kind?]
  by_cases hp : i = p
  · rw [hp, h.children, Option.map_map]
    rfl
  · rw [h.others i hi hp]

mutual
theorem ShowsChildren.add : ∀ (t : Statement) {inBlock : Bool} {u : Sheet} {p : Nat},
    u.ShowsChildren → p < u.size → u.ShowsBody p → t.Formed inBlock → (u.add p t).ShowsChildren
  | .mk kind pos [], _, _, _, h, hp, hbody, _ => h.append hp hbody kind pos
  | .mk kind pos (t :: ts), _, u, p, h, hp, hbody, ⟨_, hkind, hall⟩ => by
    refine ShowsChildren.addAll (t :: ts) (h.append hp hbody kind pos) (by simp) ?_ hall
    intro k hk
    rw [kind?_append hp, if_pos rfl] at hk
    obtain rfl := Option.some.inj hk
    exact hkind.resolve_right (by simp)

theorem ShowsChildren.addAll : ∀ (ts : List Statement) {inBlock : Bool} {u : Sheet} {p : Nat},
    u.ShowsChildren → p < u.size → u.ShowsBody p → AllFormed inBlock ts →
      (u.addAll p ts).ShowsChildren
  | [], _, _, _, h, _, _, _ => h
  | t :: ts, _, _, _, h, hp, hbody, ⟨ht, hts⟩ =>
    have hgrown := (add_holds t hp).1
    ShowsChildren.addAll ts (ShowsChildren.add t h hp hbody ht)
      (Nat.lt_of_lt_of_le hp hgrown.size_le)
      (hgrown.showsBody hp hbody) hts
end

/-- A parsed stylesheet is a tree whose inner nodes show what is inside them. -/
theorem linked_showsChildren_of_parse {source path : String} (h : parse source path = .ok u) :
    u.Linked ∧ u.ShowsChildren := by
  obtain ⟨top, hrun, rfl⟩ := exists_of_parse h
  have hempty : (empty path).ShowsChildren := by
    intro i
    refine .inr ?_
    rw [children]
    cases i <;> rfl
  have hroot : (empty path).ShowsBody root := by
    intro k hk
    obtain rfl : Kind.root = k := Option.some.inj hk
    rfl
  exact ⟨linked_ofStatements path top,
    hempty.addAll top Nat.zero_lt_one hroot (allFormed_of_run hrun)⟩

theorem kind?_root_of_parse {source path : String} (h : parse source path = .ok u) :
    u.kind? root = some .root := by
  obtain ⟨top, -, rfl⟩ := exists_of_parse h
  exact kind?_root_ofStatements path top

end CssTheming.Sheet
