import CssTheming.Proofs.Sheet.Changes
import Mathlib.Data.List.Flatten
import Mathlib.Data.List.Perm.Basic

/-!
# Taking out nodes with all below them

A node that is taken out takes what is below it along. The nodes that are left stand in the order
of the document, each below the parent that it had.
-/

namespace CssTheming.Sheet

variable {s s' : Sheet} {id p x : Nat} {ids : List Nat}

/-- A node that is none of these and below none of them. -/
def Outside (s : Sheet) (ids : List Nat) (id : Nat) : Prop := ∀ a ∈ id :: s.ancestors id, a ∉ ids

instance (s : Sheet) (ids : List Nat) (id : Nat) : Decidable (Outside s ids id) :=
  inferInstanceAs (Decidable (∀ a ∈ id :: s.ancestors id, a ∉ ids))

theorem Outside.not_mem (h : Outside s ids id) : id ∉ ids := h id List.mem_cons_self

theorem Linked.outside_iff (h : s.Linked) (hp : s.parent? id = some p) :
    Outside s ids id ↔ id ∉ ids ∧ Outside s ids p := by
  rw [Outside, h.ancestors_eq, hp]
  exact List.forall_mem_cons

theorem Linked.outside_root (h : s.Linked) (hroot : root ∉ ids) : Outside s ids root := by
  rw [Outside, h.ancestors_eq, h.parent?_root]
  simpa using hroot

/-- A node is outside unless it is one of the nodes or below one of them. -/
theorem Linked.not_outside_iff (h : s.Linked) :
    ¬Outside s ids id ↔ id ∈ ids ∨ ∃ a ∈ ids, id ∈ s.descendants a := by
  simp only [Outside, List.forall_mem_cons, h.mem_ancestors_iff, not_and_or, not_not, not_forall,
    exists_prop]
  exact or_congr_right ⟨fun ⟨a, hid, ha⟩ => ⟨a, ha, hid⟩, fun ⟨a, ha, hid⟩ => ⟨a, hid, ha⟩⟩

/-- Going down meets no node that it did not meet before, and none earlier than before. -/
theorem Pruned.descendants_sublist (h : Pruned ids s s') (hs : s.Linked) (id : Nat) :
    (s'.descendants id).Sublist (s.descendants id) := by
  induction id using hs.induction with
  | step id ih =>
    have hfewer : (s'.children id).Sublist (s.children id) := by
      rw [h.children]
      exact List.filter_sublist
    rw [h.linked.descendants_eq, hs.descendants_eq]
    calc ((s'.children id).flatMap fun c => c :: s'.descendants c).Sublist
          ((s'.children id).flatMap fun c => c :: s.descendants c) :=
        List.Sublist.flatMap_right _ fun c hc => (ih c (hfewer.mem hc)).cons_cons c
      List.Sublist _ ((s.children id).flatMap fun c => c :: s.descendants c) :=
        hfewer.flatMap _

theorem Pruned.mem_descendants_root_iff (h : Pruned ids s s') (hs : s.Linked)
    (hroot : root ∉ ids) :
    x ∈ s'.descendants root ↔ x ∈ s.descendants root ∧ Outside s ids x := by
  induction x using Nat.strongRecOn with
  | ind x ih =>
    rw [h.linked.mem_descendants_parent, hs.mem_descendants_parent, h.parent]
    cases hp : s.parent? x with
    | none => simp
    | some p =>
      have hup : p = root ∨ p ∈ s'.descendants root ↔
          (p = root ∨ p ∈ s.descendants root) ∧ Outside s ids p := by
        rw [ih p (hs.lt_of_parent? hp)]
        have houtside : p = root → Outside s ids p := fun hp => hp ▸ hs.outside_root hroot
        tauto
      rw [hs.outside_iff hp]
      by_cases hx : x ∈ ids
      · simp [hx]
      · simpa [hx] using hup

/-- What is left below the root is what is outside of the nodes taken out. -/
theorem Pruned.descendants_root_eq (h : Pruned ids s s') (hs : s.Linked) (hroot : root ∉ ids) :
    s'.descendants root = (s.descendants root).filter fun id => Outside s ids id := by
  have hmem := fun x => h.mem_descendants_root_iff (x := x) hs hroot
  have hsublist : (s'.descendants root).Sublist
      ((s.descendants root).filter fun id => Outside s ids id) := by
    have hall : (s'.descendants root).filter (fun id => Outside s ids id) = s'.descendants root :=
      List.filter_eq_self.2 fun x hx => decide_eq_true ((hmem x).1 hx).2
    rw [← hall]
    exact (h.descendants_sublist hs root).filter _
  have hperm : (s'.descendants root).Perm
      ((s.descendants root).filter fun id => Outside s ids id) := by
    refine (List.perm_ext_iff_of_nodup (h.linked.nodup_descendants root)
      ((hs.nodup_descendants root).filter _)).2 fun x => ?_
    rw [hmem, List.mem_filter, decide_eq_true_iff]
  exact hsublist.eq_of_length hperm.length_eq

/-- Nothing else is lost exactly if all that is below the nodes taken out is taken out by name. -/
theorem Linked.filter_outside_eq_iff (h : s.Linked) (hids : ∀ a ∈ ids, a ∈ s.descendants root) :
    ((s.descendants root).filter fun id => Outside s ids id) =
        (s.descendants root).filter (· ∉ ids) ↔
      ∀ a ∈ ids, ∀ x ∈ s.descendants a, x ∈ ids := by
  constructor
  · intro heq a ha x hx
    by_contra hkept
    have hroot : x ∈ s.descendants root := h.mem_descendants_trans (hids a ha) hx
    have hmem : x ∈ (s.descendants root).filter (· ∉ ids) :=
      List.mem_filter.2 ⟨hroot, decide_eq_true hkept⟩
    rw [← heq, List.mem_filter, decide_eq_true_iff] at hmem
    exact h.not_outside_iff.2 (.inr ⟨a, ha, hx⟩) hmem.2
  · intro hbelow
    refine List.filter_congr fun x _ => decide_eq_decide.2 ⟨Outside.not_mem, fun hx => ?_⟩
    by_contra hnot
    rcases h.not_outside_iff.1 hnot with hmem | ⟨a, ha, hxa⟩
    · exact hx hmem
    · exact hx (hbelow a ha x hxa)

end CssTheming.Sheet
