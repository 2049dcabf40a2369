import CssTheming.Proofs.Sheet.Links

/-!
# Changes and links

Every change leaves children and parents in agreement. A change of what a node says leaves the tree
as it is, and taking out nodes that have nothing below them leaves the others in their order.
-/

namespace CssTheming.Sheet

variable {s s' t : Sheet} {id p x : Nat} {ids : List Nat}

/-! ## Adding -/

theorem linked_empty (path : String) : (empty path).Linked := by
  have hnode : ∀ i, (empty path).nodes[i]? = if i = 0 then some ⟨.root, none, [], .start⟩
      else none := by
    intro i
    cases i <;> rfl
  have hchildren : ∀ i, (empty path).children i = [] := by
    intro i
    rw [children, hnode]
    split <;> rfl
  have hparent : ∀ i, (empty path).parent? i = none := by
    intro i
    rw [parent?, hnode]
    split <;> rfl
  exact ⟨by simp [hchildren], by simp [hparent], by simp [hchildren]⟩

theorem children_append (hp : p < s.size) (kind : Kind) (pos : Text.Position) (i : Nat) :
    (s.append p kind pos).children i = s.children i ++ if i = p then [s.size] else [] := by
  rw [children, nodes_append]
  by_cases hsize : i = s.size
  · rw [if_pos hsize, if_neg (by omega), children_of_size_le (Nat.le_of_eq hsize.symm), hsize]
    simp [Nat.ne_of_gt hp]
  · rw [if_neg hsize, children]
    by_cases hi : i = p
    · subst hi
      rw [Array.getElem?_eq_getElem hp]
      simp
    · simp [hi]

theorem parent?_append (hp : p < s.size) (kind : Kind) (pos : Text.Position) (i : Nat) :
    (s.append p kind pos).parent? i = if i = s.size then some p else s.parent? i := by
  rw [parent?, nodes_append, Option.bind_map]
  by_cases hsize : i = s.size
  · rw [if_pos hsize, if_pos hsize, hsize]
    simp [Nat.ne_of_gt hp]
  · rw [if_neg hsize, if_neg hsize, parent?]
    congr 1
    funext n
    rw [Function.comp_apply]
    split <;> rfl

theorem Linked.append (h : s.Linked) (hp : p < s.size) (kind : Kind) (pos : Text.Position) :
    (s.append p kind pos).Linked := by
  refine ⟨?_, ?_, ?_⟩
  · intro q c hc
    rw [children_append hp] at hc
    rw [parent?_append hp]
    rcases List.mem_append.1 hc with hc | hc
    · obtain ⟨hlt, hq⟩ := h.below hc
      exact ⟨hlt, by rw [if_neg (Nat.ne_of_lt (lt_size_of_parent? hq)), hq]⟩
    · split at hc
      · rename_i hq
        obtain rfl := List.mem_singleton.1 hc
        exact ⟨hq ▸ hp, by rw [if_pos rfl, hq]⟩
      · simp at hc
  · intro q c hc
    rw [parent?_append hp] at hc
    rw [children_append hp]
    split at hc
    · rename_i hsize
      obtain rfl := Option.some.inj hc
      exact List.mem_append_right _ (by simp [hsize])
    · exact List.mem_append_left _ (h.above hc)
  · intro q
    rw [children_append hp]
    split
    · refine List.nodup_append.2 ⟨h.nodup q, by simp, ?_⟩
      rintro c hc _ hsize rfl
      obtain rfl := List.mem_singleton.1 hsize
      exact Nat.lt_irrefl _ (lt_size_of_parent? (h.below hc).2)
    · rw [List.append_nil]
      exact h.nodup q

mutual
theorem Linked.add : ∀ (u : Statement) {s : Sheet} {p : Nat}, s.Linked → p < s.size →
    (s.add p u).Linked
  | .mk kind pos body, _, _, h, hp => Linked.addAll body (h.append hp kind pos) (by simp)

theorem Linked.addAll : ∀ (us : List Statement) {s : Sheet} {p : Nat}, s.Linked → p < s.size →
    (s.addAll p us).Linked
  | [], _, _, h, _ => h
  | u :: us, _, _, h, hp =>
    Linked.addAll us (h.add u hp) (Nat.lt_of_lt_of_le hp (add_holds u hp).1.size_le)
end

theorem linked_ofStatements (path : String) (top : List Statement) :
    (ofStatements path top).Linked :=
  (linked_empty path).addAll top Nat.zero_lt_one

/-! ## Changing what a node says -/

def Node.links (n : Node) : Option Nat × List Nat × Text.Position :=
  (n.parent, n.children, n.position)

/-- Two stylesheets whose nodes differ in nothing but what they say. -/
structure SameTree (s s' : Sheet) : Prop where
  path : s'.path = s.path
  links : ∀ id : Nat, s'.nodes[id]?.map Node.links = s.nodes[id]?.map Node.links

theorem SameTree.refl (s : Sheet) : SameTree s s := ⟨rfl, fun _ => rfl⟩

theorem SameTree.trans (h : SameTree s t) (h' : SameTree t s') : SameTree s s' :=
  ⟨h'.path.trans h.path, fun id => (h'.links id).trans (h.links id)⟩

theorem SameTree.parent?_eq (h : SameTree s s') (id : Nat) : s'.parent? id = s.parent? id := by
  have hlinks : ∀ s : Sheet, s.parent? id = (s.nodes[id]?.map Node.links).bind (·.1) := by
    intro s
    rw [parent?, Option.bind_map]
    rfl
  rw [hlinks, h.links, ← hlinks]

theorem SameTree.children_eq (h : SameTree s s') (id : Nat) : s'.children id = s.children id := by
  have hlinks : ∀ s : Sheet,
      s.children id = ((s.nodes[id]?.map Node.links).map (·.2.1)).getD [] := by
    intro s
    rw [children, Option.map_map]
    rfl
  rw [hlinks, h.links, ← hlinks]

theorem SameTree.location_eq (h : SameTree s s') (id : Nat) : s'.location id = s.location id := by
  have hlinks : ∀ s : Sheet,
      s.location id = ⟨s.path, ((s.nodes[id]?.map Node.links).map (·.2.2)).getD nowhere⟩ := by
    intro s
    rw [location, Option.map_map]
    rfl
  rw [hlinks, h.links, h.path, ← hlinks]

theorem SameTree.exists_kind? (h : SameTree s s') {k : Kind} (hk : s'.kind? id = some k) :
    ∃ k, s.kind? id = some k := by
  have hlinks := h.links id
  rw [kind?] at hk ⊢
  cases hn : s.nodes[id]? with
  | none =>
    rw [hn, Option.map_none, Option.map_eq_none_iff] at hlinks
    rw [hlinks] at hk
    cases hk
  | some n => exact ⟨n.kind, rfl⟩

theorem SameTree.linked (h : SameTree s s') (hs : s.Linked) : s'.Linked := by
  refine ⟨fun {p c} hc => ?_, fun {p c} hp => ?_, fun p => ?_⟩
  · rw [h.children_eq] at hc
    rw [h.parent?_eq]
    exact hs.below hc
  · rw [h.parent?_eq] at hp
    rw [h.children_eq]
    exact hs.above hp
  · rw [h.children_eq]
    exact hs.nodup p

theorem SameTree.descendants_eq (h : SameTree s s') (hs : s.Linked) (id : Nat) :
    s'.descendants id = s.descendants id := by
  induction id using hs.induction with
  | step id ih =>
    rw [(h.linked hs).descendants_eq, hs.descendants_eq, h.children_eq]
    apply List.flatMap_congr
    intro c hc
    rw [ih c hc]

theorem nodes_modify (s : Sheet) (id : Nat) (f : Node → Node) (i : Nat) :
    (s.modify id f).nodes[i]? = if id = i then s.nodes[i]?.map f else s.nodes[i]? := by
  rw [modify, Array.getElem?_modify]

theorem kind?_modify_of_ne {f : Node → Node} (h : x ≠ id) :
    (s.modify id f).kind? x = s.kind? x := by
  rw [kind?, nodes_modify, if_neg (Ne.symm h), kind?]

theorem sameTree_modify {f : Node → Node}
    (hf : ∀ n, s.nodes[id]? = some n → (f n).links = n.links) :
    SameTree s (s.modify id f) := by
  refine ⟨rfl, fun i => ?_⟩
  rw [nodes_modify]
  by_cases hi : id = i
  · subst hi
    rw [if_pos rfl]
    cases hn : s.nodes[id]? with
    | none => rfl
    | some n => rw [Option.map_some, Option.map_some, Option.map_some, hf n hn]
  · rw [if_neg hi]

theorem sameTree_setValue (s : Sheet) (id : Nat) (value : String) :
    SameTree s (s.setValue id value) := by
  apply sameTree_modify
  intro n _
  split <;> rfl

theorem sameTree_setParams (s : Sheet) (id : Nat) (params : String) :
    SameTree s (s.setParams id params) := by
  apply sameTree_modify
  intro n _
  split <;> rfl

theorem kind?_setValue {property value value' : String} {important : Bool}
    (h : s.kind? id = some (.declaration property value important)) :
    (s.setValue id value').kind? id = some (.declaration property value' important) := by
  rw [kind?, Option.map_eq_some_iff] at h
  obtain ⟨n, hn, hkind⟩ := h
  rw [kind?, setValue, nodes_modify, if_pos rfl, hn, Option.map_some, Option.map_some, hkind]

theorem kind?_setParams {name params params' : String} {hasBlock : Bool}
    (h : s.kind? id = some (.atRule name params hasBlock)) :
    (s.setParams id params').kind? id = some (.atRule name params' hasBlock) := by
  rw [kind?, Option.map_eq_some_iff] at h
  obtain ⟨n, hn, hkind⟩ := h
  rw [kind?, setParams, nodes_modify, if_pos rfl, hn, Option.map_some, Option.map_some, hkind]

/-- A declaration that gets the value that it has. -/
theorem setValue_self {property value : String} {important : Bool}
    (h : s.kind? id = some (.declaration property value important)) : s.setValue id value = s := by
  have hnodes : (s.setValue id value).nodes = s.nodes := by
    apply Array.ext_getElem?
    intro i
    rw [setValue, nodes_modify]
    by_cases hi : id = i
    · subst hi
      rw [kind?, Option.map_eq_some_iff] at h
      obtain ⟨⟨kind, parent, children, position⟩, hn, rfl⟩ := h
      rw [if_pos rfl, hn]
      rfl
    · rw [if_neg hi]
  cases s
  rw [setValue, modify] at hnodes ⊢
  rw [Sheet.mk.injEq]
  exact ⟨rfl, hnodes⟩

/-! ## Replacing -/

/-- The children of the node that is replaced are cut off from it. -/
theorem nodes_replace (s : Sheet) (id : Nat) (kind : Kind) (i : Nat) :
    (s.replace id kind).nodes[i]? =
    s.nodes[i]?.map fun n =>
      { n with
        kind := if i = id then kind else n.kind
        parent := if i ∈ s.children id then none else n.parent
        children := if i = id then [] else n.children } := by
  have hcut : ∀ (cs : List Nat) (s : Sheet),
      (cs.foldl (fun s c => s.modify c fun n => { n with parent := none }) s).nodes[i]? =
        s.nodes[i]?.map fun n => { n with parent := if i ∈ cs then none else n.parent } := by
    intro cs
    induction cs with
    | nil => simp
    | cons c cs ih =>
      intro s
      rw [List.foldl_cons, ih, nodes_modify]
      by_cases hc : c = i
      · subst hc
        simp [Function.comp_def]
      · simp [hc, Ne.symm hc]
  rw [replace, nodes_modify, hcut]
  by_cases hi : id = i
  · simp [hi, Function.comp_def]
  · simp [hi, Ne.symm hi]

theorem children_replace (s : Sheet) (id : Nat) (kind : Kind) (i : Nat) :
    (s.replace id kind).children i = if i = id then [] else s.children i := by
  rw [children, nodes_replace, Option.map_map]
  by_cases hi : i = id
  · rw [if_pos hi]
    cases s.nodes[i]? <;> simp [hi]
  · rw [if_neg hi, children]
    congr 2
    funext n
    simp [hi]

theorem parent?_replace (s : Sheet) (id : Nat) (kind : Kind) (i : Nat) :
    (s.replace id kind).parent? i = if i ∈ s.children id then none else s.parent? i := by
  rw [parent?, nodes_replace, parent?, Option.bind_map]
  generalize s.children id = cs
  cases s.nodes[i]? with
  | none => simp
  | some n => rfl

theorem Linked.replace (h : s.Linked) (id : Nat) (kind : Kind) : (s.replace id kind).Linked := by
  refine ⟨?_, ?_, ?_⟩
  · intro q c hc
    rw [children_replace] at hc
    rw [parent?_replace]
    split at hc
    · simp at hc
    · rename_i hq
      obtain ⟨hlt, hp⟩ := h.below hc
      refine ⟨hlt, ?_⟩
      rw [if_neg, hp]
      intro hmem
      exact hq (Option.some.inj (hp.symm.trans (h.below hmem).2))
  · intro q c hc
    rw [parent?_replace] at hc
    rw [children_replace]
    split at hc
    · simp at hc
    · rename_i hmem
      rw [if_neg]
      · exact h.above hc
      · rintro rfl
        exact hmem (h.above hc)
  · intro q
    rw [children_replace]
    split
    · exact List.nodup_nil
    · exact h.nodup q

/-- A node takes the place of one with nothing below it. -/
theorem sameTree_replace (h : s.children id = []) (kind : Kind) :
    SameTree s (s.replace id kind) := by
  refine ⟨by rw [replace, h]; rfl, fun i => ?_⟩
  rw [nodes_replace, h]
  cases hn : s.nodes[i]? with
  | none => rfl
  | some n =>
    by_cases hi : i = id
    · have hchildren : n.children = [] := by simpa [children, ← hi, hn] using h
      simp [Node.links, hi, hchildren]
    · simp [Node.links, hi]

theorem kind?_replace {k : Kind} (h : s.kind? id = some k) (kind : Kind) (i : Nat) :
    (s.replace id kind).kind? i = if i = id then some kind else s.kind? i := by
  rw [kind?, nodes_replace, Option.map_map]
  by_cases hi : i = id
  · rw [kind?, Option.map_eq_some_iff] at h
    obtain ⟨n, hn, -⟩ := h
    rw [if_pos hi, hi, hn]
    simp
  · rw [if_neg hi, kind?]
    congr 1
    funext n
    simp [hi]

/-! ## Taking out -/

/-- A stylesheet that some nodes were taken out of: they lack among the children, and all else is as
it was. -/
structure Pruned (ids : List Nat) (s s' : Sheet) : Prop where
  linked : s'.Linked
  path : s'.path = s.path
  kind : ∀ id, s'.kind? id = s.kind? id
  location : ∀ id, s'.location id = s.location id
  children : ∀ id, s'.children id = (s.children id).filter (· ∉ ids)
  parent : ∀ id, s'.parent? id = if id ∈ ids then none else s.parent? id

theorem nodes_remove (h : s.parent? id = some p) (i : Nat) : (s.remove id).nodes[i]? =
    s.nodes[i]?.map fun n =>
      { n with
        parent := if i = id then none else n.parent
        children := if i = p then n.children.filter (· ≠ id) else n.children } := by
  rw [remove, h, nodes_modify, nodes_modify]
  cases s.nodes[i]? with
  | none => simp
  | some n =>
    by_cases hp : p = i
    · subst hp
      by_cases hi : id = p
      · simp [hi]
      · simp [hi, Ne.symm hi]
    · by_cases hi : id = i
      · simp [hp, hi, Ne.symm hp]
      · simp [hp, hi, Ne.symm hp, Ne.symm hi]

theorem Linked.filter_children (h : s.Linked) (hp : s.parent? id ≠ some p) :
    (s.children p).filter (· ∉ [id]) = s.children p := by
  apply List.filter_eq_self.2
  intro c hc
  have hne : c ≠ id := by
    rintro rfl
    exact hp (h.below hc).2
  simpa using hne

theorem Linked.children_remove (h : s.Linked) (id q : Nat) :
    (s.remove id).children q = (s.children q).filter (· ∉ [id]) := by
  by_cases hq : s.parent? id = some q
  · rw [children, nodes_remove hq, children]
    cases s.nodes[q]? <;> simp
  · rw [h.filter_children hq]
    cases hp : s.parent? id with
    | none => rw [remove, hp]
    | some p =>
      have hne : q ≠ p := by
        rintro rfl
        exact hq hp
      rw [children, nodes_remove hp, children]
      cases s.nodes[q]? <;> simp [hne]

theorem parent?_remove (s : Sheet) (id c : Nat) :
    (s.remove id).parent? c = if c ∈ [id] then none else s.parent? c := by
  cases hp : s.parent? id with
  | none => by_cases hc : c = id <;> simp [remove, hp, hc]
  | some p =>
    rw [parent?, nodes_remove hp, parent?]
    cases s.nodes[c]? <;> simp

/-- Children and parents still agree if both forget the same nodes. -/
theorem Linked.of_forgets (h : s.Linked)
    (hchildren : ∀ q, s'.children q = (s.children q).filter (· ∉ ids))
    (hparent : ∀ c, s'.parent? c = if c ∈ ids then none else s.parent? c) : s'.Linked := by
  refine ⟨fun {q c} hc => ?_, fun {q c} hc => ?_, fun q => ?_⟩
  · rw [hchildren, List.mem_filter] at hc
    rw [hparent, if_neg (by simpa using hc.2)]
    exact h.below hc.1
  · rw [hparent] at hc
    rw [hchildren, List.mem_filter]
    split at hc
    · simp at hc
    · rename_i hstays
      exact ⟨h.above hc, by simpa using hstays⟩
  · rw [hchildren]
    exact (h.nodup q).filter _

theorem Linked.pruned_remove (h : s.Linked) (id : Nat) : Pruned [id] s (s.remove id) := by
  have hpath : (s.remove id).path = s.path := by
    rw [remove]
    split <;> rfl
  refine ⟨h.of_forgets (h.children_remove id) (parent?_remove s id), hpath, fun c => ?_, fun c => ?_,
    h.children_remove id, parent?_remove s id⟩
  · cases hp : s.parent? id with
    | none => rw [remove, hp]
    | some p =>
      rw [kind?, nodes_remove hp, kind?]
      cases s.nodes[c]? <;> rfl
  · rw [location, location, hpath]
    cases hp : s.parent? id with
    | none => rw [remove, hp]
    | some p =>
      rw [nodes_remove hp]
      cases s.nodes[c]? <;> rfl

theorem Pruned.trans {ids' : List Nat} (h : Pruned ids s t) (h' : Pruned ids' t s') :
    Pruned (ids ++ ids') s s' where
  linked := h'.linked
  path := h'.path.trans h.path
  kind id := (h'.kind id).trans (h.kind id)
  location id := (h'.location id).trans (h.location id)
  children id := by
    rw [h'.children, h.children, List.filter_filter]
    apply List.filter_congr
    intro c _
    by_cases hc : c ∈ ids <;> simp [hc]
  parent id := by
    rw [h'.parent, h.parent]
    by_cases hid : id ∈ ids <;> by_cases hid' : id ∈ ids' <;> simp [hid, hid']

theorem Linked.pruned (h : s.Linked) (ids : List Nat) : Pruned ids s (ids.foldl remove s) := by
  induction ids generalizing s with
  | nil =>
    refine ⟨h, rfl, fun _ => rfl, fun _ => rfl, fun id => ?_, fun id => by simp⟩
    exact (List.filter_eq_self.2 (by simp)).symm
  | cons id ids ih => exact (h.pruned_remove id).trans (ih (h.pruned_remove id).linked)

theorem flatMap_filter_of {α β : Type} {q : α → Bool} {f g : α → List β} {l : List α}
    (hkept : ∀ a ∈ l, q a = true → f a = g a) (hdropped : ∀ a ∈ l, q a = false → g a = []) :
    (l.filter q).flatMap f = l.flatMap g := by
  induction l with
  | nil => rfl
  | cons a l ih =>
    have ih :=
      ih (fun b hb => hkept b (List.mem_cons_of_mem a hb)) fun b hb =>
        hdropped b (List.mem_cons_of_mem a hb)
    rw [List.filter_cons, List.flatMap_cons]
    cases hq : q a with
    | true => rw [if_pos rfl, List.flatMap_cons, ih, hkept a List.mem_cons_self hq]
    | false => rw [if_neg (by simp), ih, hdropped a List.mem_cons_self hq, List.nil_append]

/-- What is below a node is what was there but for the nodes taken out. -/
theorem Pruned.descendants_eq (h : Pruned ids s s') (hs : s.Linked)
    (hleaf : ∀ id ∈ ids, s.children id = []) (id : Nat) :
    s'.descendants id = (s.descendants id).filter (· ∉ ids) := by
  induction id using hs.induction with
  | step id ih =>
    rw [h.linked.descendants_eq, hs.descendants_eq, h.children, List.filter_flatMap]
    apply flatMap_filter_of
    · intro c hc hkept
      rw [List.filter_cons, if_pos hkept, ih c hc]
    · intro c hc hdropped
      have hmem : c ∈ ids := by simpa using hdropped
      rw [hs.descendants_eq, hleaf c hmem]
      simp [hmem]

/-- The nodes that stay are where they were. -/
theorem Pruned.ancestors_eq (h : Pruned ids s s') (hs : s.Linked)
    (hleaf : ∀ id ∈ ids, s.children id = []) (hx : x ∉ ids) :
    s'.ancestors x = s.ancestors x := by
  induction x using Nat.strongRecOn with
  | ind x ih =>
    rw [h.linked.ancestors_eq, hs.ancestors_eq, h.parent, if_neg hx]
    cases hp : s.parent? x with
    | none => rfl
    | some p =>
      have hstays : p ∉ ids := by
        intro hmem
        simpa [hleaf p hmem] using hs.above hp
      dsimp only
      rw [ih p (hs.lt_of_parent? hp) hstays]

/-! ## Going over nodes -/

/-- A stylesheet in which each of some nodes was edited as a relation of its kinds allows, and
nothing else changed. -/
structure Edited (R : Nat → Kind → Kind → Prop) (ids : List Nat) (s s' : Sheet) : Prop where
  sameTree : SameTree s s'
  others : ∀ id ∉ ids, s'.kind? id = s.kind? id
  each : ∀ id ∈ ids, ∀ k, s.kind? id = some k → ∃ k', s'.kind? id = some k' ∧ R id k k'

variable {R : Nat → Kind → Kind → Prop}

theorem edited_nil (s : Sheet) : Edited R [] s s := ⟨.refl s, fun _ _ => rfl, by simp⟩

theorem edited_one {k k' : Kind} (htree : SameTree s s')
    (hothers : ∀ i, i ≠ id → s'.kind? i = s.kind? i)
    (hk : s.kind? id = some k) (hk' : s'.kind? id = some k') (hR : R id k k') :
    Edited R [id] s s' := by
  refine ⟨htree, fun i hi => hothers i (by simpa using hi), fun i hi l hl => ?_⟩
  obtain rfl := List.mem_singleton.1 hi
  obtain rfl := Option.some.inj (hk.symm.trans hl)
  exact ⟨k', hk', hR⟩

theorem Edited.others_of_mem (h : Edited R [id] s t) (hid : id ∉ ids) (hx : x ∈ ids) :
    t.kind? x = s.kind? x :=
  h.others x fun hmem => hid (List.mem_singleton.1 hmem ▸ hx)

theorem Edited.cons (h : Edited R [id] s t) (hid : id ∉ ids) (h' : Edited R ids t s') :
    Edited R (id :: ids) s s' := by
  refine ⟨h.sameTree.trans h'.sameTree, fun i hi => ?_, fun i hi k hk => ?_⟩
  · rw [List.mem_cons, not_or] at hi
    rw [h'.others i hi.2, h.others i (by simpa using hi.1)]
  · rcases List.mem_cons.1 hi with rfl | hmem
    · rw [h'.others i hid]
      exact h.each i List.mem_cons_self k hk
    · apply h'.each i hmem k
      rw [h.others i, hk]
      intro hone
      obtain rfl := List.mem_singleton.1 hone
      exact hid hmem

end CssTheming.Sheet
