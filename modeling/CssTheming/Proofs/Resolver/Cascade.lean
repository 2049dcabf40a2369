import CssTheming.Proofs.Table
import CssTheming.Resolver.Host

/-!
# The cascade

An element shows a custom property as the last loaded stylesheet says that declares it for the
class of the element, or else as the last one says that declares it for the root. Stylesheets that
declare the property for neither do not matter.
-/

namespace CssTheming

/-- A property is declared neither for the root nor for a class. -/
def CustomProperties.IsSilent (property : String) (name : Option String) (p : CustomProperties) :
    Prop :=
  p.root.get? property = none ∧ (name.bind p.classes.get?).bind (·.get? property) = none

instance (property : String) (name : Option String) (p : CustomProperties) :
    Decidable (p.IsSilent property name) :=
  inferInstanceAs (Decidable (_ ∧ _))

namespace Host

variable {h : Host}

theorem get?_rootStyle (h : Host) (property : String) :
    h.rootStyle.get? property = h.loaded.reverse.findSome? fun p => p.root.get? property := by
  rw [rootStyle, ← List.foldl_map (f := CustomProperties.root)
      (g := fun (style : Table String) t => style.insertAll t.entries),
    Table.get?_foldl_insertAll, Table.get?_empty, Option.or_none, ← List.map_reverse,
    List.findSome?_map]
  rfl

theorem get?_probeStyle (h : Host) (name property : String) :
    (h.probeStyle name).get? property =
      (h.loaded.reverse.findSome? fun p => (p.classes.get? name).bind (·.get? property)).or
        (h.rootStyle.get? property) := by
  rw [probeStyle, Table.get?_foldl_insertAll, ← List.filterMap_reverse, ← List.head?_filterMap,
    List.filterMap_filterMap, List.head?_filterMap]

/-- What one of the loaded stylesheets gives among others that are silent. -/
theorem get?_style {front back : List CustomProperties} {p : CustomProperties} {property : String}
    {name : Option String} (hloaded : h.loaded = front ++ p :: back)
    (hothers : ∀ q ∈ front ++ back, q.IsSilent property name) :
    (h.style name).get? property =
      ((name.bind p.classes.get?).bind (·.get? property)).or (p.root.get? property) := by
  obtain ⟨hfront, hback⟩ := List.forall_mem_append.1 hothers
  have hfirst {f : CustomProperties → Option String}
      (hf : ∀ q : CustomProperties, q.IsSilent property name → f q = none) :
      h.loaded.reverse.findSome? f = f p := by
    have hsilent {qs : List CustomProperties} (hqs : ∀ q ∈ qs, q.IsSilent property name) :
        qs.reverse.findSome? f = none :=
      List.findSome?_eq_none_iff.2 fun q hq => hf q (hqs q (List.mem_reverse.1 hq))
    rw [hloaded, List.reverse_append, List.reverse_cons, List.append_assoc, List.findSome?_append,
      hsilent hback, Option.none_or, List.singleton_append, List.findSome?_cons, hsilent hfront]
    cases f p <;> rfl
  have hroot : h.rootStyle.get? property = p.root.get? property := by
    rw [get?_rootStyle, hfirst fun q hq => hq.1]
  cases name with
  | none => exact hroot
  | some name =>
    have hclass : (h.loaded.reverse.findSome? fun q =>
        (q.classes.get? name).bind (·.get? property)) =
          (p.classes.get? name).bind (·.get? property) :=
      hfirst fun q hq => hq.2
    rw [style, get?_probeStyle, hroot, hclass, Option.bind_some]

end Host

end CssTheming
