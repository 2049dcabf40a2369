import CssTheming.Sheet.Basic

/-!
# Stylesheets as trees

A stylesheet that statements are added to holds them below the node they are added to, and numbers
them from its size on. Nothing else in it changes, so the statements that a stylesheet was made of
are found in it again.
-/

namespace CssTheming.Sheet

theorem nodes_append (s : Sheet) (p : Nat) (kind : Kind) (pos : Text.Position) (i : Nat) :
    (s.append p kind pos).nodes[i]? =
      ((if i = s.size then some ⟨kind, some p, [], pos⟩ else s.nodes[i]?) : Option Node).map
        fun n =>
        if i = p then { n with children := n.children ++ [s.size] } else n := by
  rw [append, Array.getElem?_modify, Array.getElem?_push]
  by_cases hp : p = i
  · rw [if_pos hp, size]
    simp [hp]
  · rw [if_neg hp, size]
    have hi : i ≠ p := fun h => hp h.symm
    simp [hi]

@[simp] theorem size_append (s : Sheet) (p : Nat) (kind : Kind) (pos : Text.Position) :
    (s.append p kind pos).size = s.size + 1 := by
  simp [append, size]

/-! ## Statements held by a stylesheet -/

mutual
/-- The node with this number is the statement, and what is below it is what is inside the
statement. -/
def Holds (s : Sheet) (parent id : Nat) : Statement → Prop
  | .mk kind pos body => ∃ ids, s.nodes[id]? = some ⟨kind, some parent, ids, pos⟩ ∧
    s.HoldsAll id ids body

/-- The children of a node are these statements. -/
def HoldsAll (s : Sheet) (parent : Nat) : List Nat → List Statement → Prop
  | [], [] => True
  | id :: ids, t :: ts => parent < id ∧ s.Holds parent id t ∧ s.HoldsAll parent ids ts
  | _, _ => False
end

mutual
theorem Holds.statement_eq {s : Sheet} : ∀ {parent id : Nat} {t : Statement}, s.Holds parent id t →
    (s.nodes[id]?.map fun n => Statement.mk n.kind n.position (s.body id)) = some t
  | _, id, .mk kind pos inner, ⟨ids, hnode, hall⟩ => by
    have hchildren : s.children id = ids := by simp [children, hnode]
    rw [hnode, Option.map_some, body, hchildren, HoldsAll.body_eq hall]

theorem HoldsAll.body_eq {s : Sheet} :
    ∀ {parent : Nat} {ids : List Nat} {ts : List Statement}, s.HoldsAll parent ids ts →
    (ids.flatMap fun c =>
      if parent < c ∧ c <
        s.size then ((s.nodes[c]?).map fun n => .mk n.kind n.position (s.body c)).toList else []) =
        ts
  | _, [], [], _ => rfl
  | parent, id :: ids, t :: ts, ⟨hlt, ht, hts⟩ => by
    have hsize : id < s.size := by
      cases t
      obtain ⟨_, hnode, -⟩ := ht
      exact (Array.getElem?_eq_some_iff.1 hnode).1
    rw [List.flatMap_cons, if_pos ⟨hlt, hsize⟩, Holds.statement_eq ht, HoldsAll.body_eq hts]
    rfl
  | _, [], _ :: _, h => absurd h id
  | _, _ :: _, [], h => absurd h id
end

mutual
/-- What a node is goes by the nodes from it on. -/
theorem Holds.congr {s s' : Sheet} : ∀ {parent id : Nat} {t : Statement},
    (∀ i, id ≤ i → i < s.size → s'.nodes[i]? = s.nodes[i]?) → s.Holds parent id t →
      s'.Holds parent id t
  | _, id, .mk kind pos body, heq, ⟨ids, hnode, hall⟩ =>
    ⟨ids, by rw [heq id (Nat.le_refl id) (Array.getElem?_eq_some_iff.1 hnode).1, hnode],
      HoldsAll.congr (fun i hi => heq i (Nat.le_of_lt hi)) hall⟩

theorem HoldsAll.congr {s s' : Sheet} : ∀ {parent : Nat} {ids : List Nat} {ts : List Statement},
    (∀ i, parent < i → i < s.size → s'.nodes[i]? = s.nodes[i]?) → s.HoldsAll parent ids ts →
      s'.HoldsAll parent ids ts
  | _, [], [], _, _ => trivial
  | _, _ :: _, _ :: _, heq, ⟨hlt, ht, hts⟩ =>
    ⟨hlt, Holds.congr (fun i hi => heq i (Nat.lt_of_lt_of_le hlt hi)) ht, HoldsAll.congr heq hts⟩
  | _, [], _ :: _, _, h => absurd h id
  | _, _ :: _, [], _, h => absurd h id
end

theorem Holds.kind?_eq {s : Sheet} {parent id : Nat} {t : Statement} (h : s.Holds parent id t) :
    s.kind? id = some t.kind := by
  cases t
  obtain ⟨ids, hnode, -⟩ := h
  rw [kind?, hnode]
  rfl

theorem Holds.holdsAll_children {s : Sheet} {parent id : Nat} {t : Statement}
    (h : s.Holds parent id t) : s.HoldsAll id (s.children id) t.body := by
  cases t
  obtain ⟨ids, hnode, hall⟩ := h
  have hchildren : s.children id = ids := by simp [children, hnode]
  rwa [hchildren]

/-! ## Adding statements -/

/-- A stylesheet to which nodes were added below one node: the node gets children behind the ones
that it has, and the others stay. -/
structure Grown (s s' : Sheet) (parent : Nat) (ids : List Nat) : Prop where
  size_le : s.size ≤ s'.size
  others : ∀ i < s.size, i ≠ parent → s'.nodes[i]? = s.nodes[i]?
  children : s'.nodes[parent]? = s.nodes[parent]?.map fun n =>
    { n with children := n.children ++ ids }

theorem grown_append {s : Sheet} {p : Nat} (hp : p < s.size) (kind : Kind) (pos : Text.Position) :
    Grown s (s.append p kind pos) p [s.size] where
  size_le := by simp
  others i hi hne := by
    rw [nodes_append, if_neg (Nat.ne_of_lt hi)]
    simp [hne]
  children := by
    rw [nodes_append, if_neg (Nat.ne_of_lt hp)]
    simp

theorem Grown.trans {s s₁ s₂ : Sheet} {p : Nat} {ids ids' : List Nat} (h₁ : Grown s s₁ p ids)
    (h₂ : Grown s₁ s₂ p ids') :
    Grown s s₂ p (ids ++ ids') where
  size_le := Nat.le_trans h₁.size_le h₂.size_le
  others i hi hne := by rw [h₂.others i (Nat.lt_of_lt_of_le hi h₁.size_le) hne, h₁.others i hi hne]
  children := by
    rw [h₂.children, h₁.children, Option.map_map]
    congr 1
    funext n
    simp

mutual
theorem add_holds : ∀ (t : Statement) {s : Sheet} {p : Nat}, p < s.size →
    Grown s (s.add p t) p [s.size] ∧ (s.add p t).Holds p s.size t
  | .mk kind pos body, s, p, hp => by
    obtain ⟨ids, hgrown, hall⟩ :=
      addAll_holds body (s := s.append p kind pos) (p := s.size) (by simp)
    have happend := grown_append hp kind pos
    have hnode : (s.append p kind pos).nodes[s.size]? = some ⟨kind, some p, [], pos⟩ := by
      rw [nodes_append]
      simp [Nat.ne_of_gt hp]
    rw [add]
    refine ⟨⟨?_, ?_, ?_⟩, ids, ?_, hall⟩
    · exact Nat.le_trans happend.size_le hgrown.size_le
    · intro i hi hne
      rw [hgrown.others i (Nat.lt_of_lt_of_le hi happend.size_le) (Nat.ne_of_lt hi),
        happend.others i hi hne]
    · rw [hgrown.others p (Nat.lt_of_lt_of_le hp happend.size_le) (Nat.ne_of_lt hp),
        happend.children]
    · rw [hgrown.children, hnode]
      rfl

theorem addAll_holds : ∀ (ts : List Statement) {s : Sheet} {p : Nat}, p < s.size →
    ∃ ids, Grown s (s.addAll p ts) p ids ∧ (s.addAll p ts).HoldsAll p ids ts
  | [], s, p, _ => by
    refine ⟨[], ⟨Nat.le_refl _, fun _ _ _ => rfl, ?_⟩, trivial⟩
    rw [addAll]
    simp
  | t :: ts, s, p, hp => by
    obtain ⟨hgrown, ht⟩ := add_holds t hp
    obtain ⟨ids, hgrown', hts⟩ := addAll_holds ts (Nat.lt_of_lt_of_le hp hgrown.size_le)
    rw [addAll]
    refine ⟨s.size :: ids, hgrown.trans hgrown', hp, ?_, hts⟩
    -- The later statements change only nodes in front of this one and behind it.
    exact ht.congr fun i hle hlt => hgrown'.others i hlt (Nat.ne_of_gt (Nat.lt_of_lt_of_le hp hle))
end

/-- Adding a statement for each entry, one after the other. -/
theorem foldl_eq_addAll {ε : Type} {f : Sheet → ε → Sheet} {statement : ε → Statement} {p : Nat}
    (h : ∀ s e, f s e = s.add p (statement e)) (entries : List ε) (s : Sheet) :
    entries.foldl f s = s.addAll p (entries.map statement) := by
  induction entries generalizing s with
  | nil => rfl
  | cons e entries ih => rw [List.foldl_cons, ih, h, List.map_cons, addAll]

theorem appendDeclaration_eq (s : Sheet) (id : Nat) (property value : String) :
    s.appendDeclaration id property value =
      s.add id (.mk (.declaration property value false) nowhere []) := by
  rw [add, addAll, appendDeclaration]

theorem holdsAll_ofStatements (path : String) (top : List Statement) :
    (ofStatements path top).HoldsAll root ((ofStatements path top).children root) top := by
  obtain ⟨ids, hgrown, hall⟩ := addAll_holds top (s := empty path) (p := root) Nat.zero_lt_one
  have hchildren : (ofStatements path top).children root = ids := by
    rw [children, ofStatements, hgrown.children]
    rfl
  rwa [hchildren]

/-- The statements that a stylesheet is made of are what is below its root. -/
theorem body_ofStatements (path : String) (top : List Statement) :
    (ofStatements path top).body root = top := by
  rw [body]
  exact (holdsAll_ofStatements path top).body_eq

theorem kind?_root_ofStatements (path : String) (top : List Statement) :
    (ofStatements path top).kind? root = some .root := by
  obtain ⟨ids, hgrown, -⟩ := addAll_holds top (s := empty path) (p := root) Nat.zero_lt_one
  rw [kind?, ofStatements, hgrown.children]
  rfl

end CssTheming.Sheet
