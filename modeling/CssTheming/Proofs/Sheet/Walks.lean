import CssTheming.Proofs.Sheet.Parsed
import Mathlib.Data.List.Nodup

/-!
# Walks over changed stylesheets

However a stylesheet was changed, its children and parents agree and parents were there first. So
the walk up from a node comes to an end, and the walk down, which keeps on a stack what it has still
to visit, ends after it went over everything below the node in document order.
-/

namespace CssTheming.Sheet

variable {s : Sheet} {id n p x : Nat} {stack ids ids' : List Nat}

/-! ## Changes -/

/-- A change of a stylesheet at one of its nodes. -/
inductive Change where
  | append (parent : Nat) (kind : Kind) (position : Text.Position)
  | appendRule (parent : Nat) (selector : String)
  | appendDeclaration (parent : Nat) (property value : String)
  | remove (id : Nat)
  | replace (id : Nat) (kind : Kind)
  | setValue (id : Nat) (value : String)
  | setParams (id : Nat) (params : String)

namespace Change

/-- The node that a change is about. -/
def node : Change → Nat
  | append parent _ _ => parent
  | appendRule parent _ => parent
  | appendDeclaration parent _ _ => parent
  | remove id => id
  | replace id _ => id
  | setValue id _ => id
  | setParams id _ => id

def apply (s : Sheet) : Change → Sheet
  | append parent kind position => s.append parent kind position
  | appendRule parent selector => s.appendRule parent selector
  | appendDeclaration parent property value => s.appendDeclaration parent property value
  | remove id => s.remove id
  | replace id kind => s.replace id kind
  | setValue id value => s.setValue id value
  | setParams id params => s.setParams id params

end Change

/-- What comes of an empty or a parsed stylesheet by changes of nodes that it has, attached ones or
not. -/
inductive Reached : Sheet → Prop
  | empty (path : String) : Reached (empty path)
  | parsed {source path : String} {s : Sheet} (h : parse source path = .ok s) : Reached s
  | changed {s : Sheet} (h : Reached s) (change : Change) (hnode : change.node < s.size) :
    Reached (change.apply s)

theorem Linked.apply (h : s.Linked) {change : Change} (hnode : change.node < s.size) :
    (change.apply s).Linked := by
  cases change with
  | append parent kind position => exact h.append hnode kind position
  | appendRule parent selector => exact h.append hnode _ _
  | appendDeclaration parent property value => exact h.append hnode _ _
  | remove id => exact (h.pruned_remove id).linked
  | replace id kind => exact h.replace id kind
  | setValue id value => exact (sameTree_setValue s id value).linked h
  | setParams id params => exact (sameTree_setParams s id params).linked h

theorem Reached.linked (h : Reached s) : s.Linked := by
  induction h with
  | empty path => exact linked_empty path
  | parsed h => exact (linked_showsChildren_of_parse h).1
  | changed _ _ hnode ih => exact ih.apply hnode

/-! ## Going up -/

/-- The walk up visits a node and goes on with its parent. -/
inductive WalksUp (s : Sheet) : Option Nat → List Nat → Prop
  | done : WalksUp s none []
  | step {id : Nat} {ids : List Nat} (h : WalksUp s (s.parent? id) ids) :
    WalksUp s (some id) (id :: ids)

theorem WalksUp.unique {next : Option Nat} (h : WalksUp s next ids) (h' : WalksUp s next ids') :
    ids' = ids := by
  induction h generalizing ids' with
  | done =>
    cases h'
    rfl
  | step _ ih =>
    cases h' with
    | step h' => rw [ih h']

theorem Linked.walksUp (h : s.Linked) (n : Nat) : WalksUp s (s.parent? n) (s.ancestors n) := by
  induction n using Nat.strongRecOn with
  | ind n ih =>
    rw [h.ancestors_eq]
    cases hp : s.parent? n with
    | none => exact .done
    | some p => exact .step (ih p (h.lt_of_parent? hp))

theorem Linked.walksUp_iff (h : s.Linked) : WalksUp s (s.parent? n) ids ↔ ids = s.ancestors n := by
  constructor
  · exact (h.walksUp n).unique
  · rintro rfl
    exact h.walksUp n

/-! ## Going down -/

/-- The walk down visits the node on top of the stack and puts the children of that in its place,
the first one on top. -/
inductive WalksDown (s : Sheet) : List Nat → List Nat → Prop
  | done : WalksDown s [] []
  | step {id : Nat} {stack ids : List Nat} (h : WalksDown s (s.children id ++ stack) ids) :
    WalksDown s (id :: stack) (id :: ids)

theorem WalksDown.unique (h : WalksDown s stack ids) (h' : WalksDown s stack ids') :
    ids' = ids := by
  induction h generalizing ids' with
  | done =>
    cases h'
    rfl
  | step _ ih =>
    cases h' with
    | step h' => rw [ih h']

/-- All that is below a node is visited before the rest of the stack. -/
theorem Linked.walksDown_append (h : s.Linked) (hrest : WalksDown s stack ids) (n : Nat) :
    WalksDown s (s.children n ++ stack) (s.descendants n ++ ids) := by
  induction n using h.induction generalizing stack ids with
  | step n ih =>
    rw [h.descendants_eq]
    generalize s.children n = cs at ih ⊢
    induction cs with
    | nil => exact hrest
    | cons c cs ihcs =>
      have hcs := ihcs fun d hd => ih d (List.mem_cons_of_mem c hd)
      rw [List.flatMap_cons, List.cons_append, List.cons_append, List.cons_append,
        List.append_assoc]
      exact .step (ih c List.mem_cons_self hcs)

theorem Linked.walksDown_iff (h : s.Linked) :
    WalksDown s (s.children n) ids ↔ ids = s.descendants n := by
  have hwalk := h.walksDown_append .done n
  rw [List.append_nil, List.append_nil] at hwalk
  constructor
  · exact hwalk.unique
  · rintro rfl
    exact hwalk

/-! ## The order of a walk down -/

/-- A node is followed by all that is below it. -/
theorem Linked.infix_descendants (h : s.Linked) (hx : x ∈ s.descendants n) :
    x :: s.descendants x <:+: s.descendants n := by
  induction n using h.induction with
  | step n ih =>
    obtain ⟨c, hc, hxc⟩ := h.mem_descendants_iff.1 hx
    have hblock : c :: s.descendants c <:+: s.descendants n := by
      rw [h.descendants_eq n]
      exact List.infix_flatMap_of_mem hc fun c => c :: s.descendants c
    rcases hxc with rfl | hxc
    · exact hblock
    · exact ((ih c hc hxc).trans (List.suffix_cons c _).isInfix).trans hblock

theorem Linked.children_sublist (h : s.Linked) (n : Nat) :
    (s.children n).Sublist (s.descendants n) := by
  rw [h.descendants_eq]
  generalize s.children n = cs
  induction cs with
  | nil => exact List.Sublist.slnil
  | cons c cs ih =>
    rw [List.flatMap_cons, List.cons_append]
    exact (ih.trans (List.sublist_append_right _ _)).cons_cons c

/-- In every stylesheet that was reached children and parents agree, and both walks end: up from a
node there are its ancestors, and down from it is everything that has it as an ancestor, each node
once and in front of all below it, siblings in their order. Nodes are numbered as they are
created. -/
theorem walks_of_reached (h : Reached s) :
    (∀ p c, s.parent? c = some p ↔ c ∈ s.children p) ∧
      (∀ p c, c ∈ s.children p → (s.children p).count c = 1 ∧ p < c) ∧
      ∀ n, (∀ ids, WalksUp s (s.parent? n) ids ↔ ids = s.ancestors n) ∧
        (∀ ids, WalksDown s (s.children n) ids ↔ ids = s.descendants n) ∧
        (∀ x, x ∈ s.descendants n ↔ n ∈ s.ancestors x) ∧
        (s.descendants n).Nodup ∧
        (∀ x ∈ s.descendants n, x :: s.descendants x <:+: s.descendants n) ∧
        ∀ p, p = n ∨ p ∈ s.descendants n → (s.children p).Sublist (s.descendants n) := by
  have hs := h.linked
  refine ⟨fun p c => ⟨hs.above, fun hc => (hs.below hc).2⟩, fun p c hc => ⟨?_, (hs.below hc).1⟩,
    fun n => ⟨fun ids => hs.walksUp_iff, fun ids => hs.walksDown_iff,
      fun x => hs.mem_ancestors_iff.symm, hs.nodup_descendants n,
      fun x hx => hs.infix_descendants hx, ?_⟩⟩
  · exact List.count_eq_one_of_mem (hs.nodup p) hc
  · rintro p (rfl | hp)
    · exact hs.children_sublist p
    · have hbelow : (s.descendants p).Sublist (s.descendants n) :=
        ((List.suffix_cons p _).isInfix.trans (hs.infix_descendants hp)).sublist
      exact (hs.children_sublist p).trans hbelow

/-- The rule, replaced by a comment, has lost its declaration and its inner rule; the latter goes on
outside of the stylesheet, where it got a declaration and lost it. -/
theorem walks_of_reached_detached :
    let rule := ofStatements "a.css"
      [.mk (.rule ".a") ⟨1, 1⟩ [.mk (.declaration "color" "red" false) ⟨1, 6⟩ [],
        .mk (.rule ".b") ⟨1, 18⟩ [.mk (.comment "c") ⟨1, 23⟩ []]]]
    let s := (((rule.replace 1 (.comment "a")).appendDeclaration 3 "top" "0").append 3 (.rule ".c")
      nowhere).remove 5
    Reached s ∧ s.ancestors 6 = [3] ∧ s.descendants root = [1] ∧ s.descendants 3 = [4, 6] ∧
      WalksUp s (s.parent? 6) [3] ∧ WalksDown s (s.children 3) [4, 6] ∧
      (s.children 3).count 6 = 1 := by
  intro rule s
  have hparse : parse ".a \x7b color: red; .b \x7b /*c*/ \x7d \x7d" "a.css" = .ok rule := by
    decide +kernel
  have h : Reached s :=
    .changed (.changed (.changed (.changed (.parsed hparse) (.replace 1 (.comment "a")) (by decide))
      (.appendDeclaration 3 "top" "0") (by decide)) (.append 3 (.rule ".c") nowhere) (by decide))
      (.remove 5) (by decide)
  have hup : s.ancestors 6 = [3] := by decide +kernel
  have hdown : s.descendants 3 = [4, 6] := by decide +kernel
  obtain ⟨-, hcount, hwalks⟩ := walks_of_reached h
  refine ⟨h, hup, by decide +kernel, hdown, ((hwalks 6).1 [3]).2 hup.symm,
    ((hwalks 3).2.1 [4, 6]).2 hdown.symm, (hcount 3 6 (by decide +kernel)).1⟩

end CssTheming.Sheet
