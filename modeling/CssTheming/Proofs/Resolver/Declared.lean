import CssTheming.Proofs.Sheet.Printing
import CssTheming.Resolver.Properties

/-!
# What statements declare

The custom properties that a stylesheet declares, told from the statements that it is made of. They
do not depend on where the statements stand.
-/

namespace CssTheming.CustomProperties

open Sheet

/-- The custom property that a statement of some kind declares. -/
def declaredBy? : Kind → Option (String × String)
  | .declaration property value _ =>
    if Text.startsWith property "--" then
      (Identifier.decode? property).map fun name => (name, String.ofList (Text.trim value.toList))
    else none
  | _ => none

/-- What the statements inside a rule declare. -/
def declaredIn (body : List Statement) : List (String × String) :=
  body.filterMap fun st => declaredBy? st.kind

/-- Adds what a statement at the top declares. -/
def addStatement (p : CustomProperties) (st : Statement) : CustomProperties :=
  match st.kind with
  | .rule selector => (Selectors.split selector).foldl (addSelector (declaredIn st.body)) p
  | _ => p

variable {s : Sheet} {parent id : Nat} {ids : List Nat}

theorem declared?_eq (s : Sheet) (id : Nat) : declared? s id = (s.kind? id).bind declaredBy? := by
  unfold declared?
  cases s.kind? id with
  | none => rfl
  | some kind => cases kind <;> rfl

theorem filterMap_declared? {body : List Statement} (h : s.HoldsAll parent ids body) :
    ids.filterMap (declared? s) = declaredIn body := by
  induction ids generalizing body with
  | nil =>
    cases body with
    | nil => rfl
    | cons st body => exact absurd h id
  | cons i ids ih =>
    cases body with
    | nil => exact absurd h id
    | cons st body =>
      obtain ⟨-, hst, hrest⟩ := h
      rw [declaredIn, List.filterMap_cons, List.filterMap_cons, ← declaredIn, ih hrest,
        declared?_eq, hst.kind?_eq]
      rfl

theorem addRule_of_holds {st : Statement} (h : s.Holds parent id st) (p : CustomProperties) :
    (if s.isRule id then addRule s p id else p) = addStatement p st := by
  have hkind := h.kind?_eq
  have hdeclared := filterMap_declared? h.holdsAll_children
  rw [isRule, hkind, addRule, selectors, hkind, hdeclared, addStatement]
  cases st.kind <;> rfl

theorem foldl_addRule {top : List Statement} (h : s.HoldsAll parent ids top)
    (p : CustomProperties) :
    (ids.filter s.isRule).foldl (addRule s) p = top.foldl addStatement p := by
  induction ids generalizing top p with
  | nil =>
    cases top with
    | nil => rfl
    | cons st top => exact absurd h id
  | cons i ids ih =>
    cases top with
    | nil => exact absurd h id
    | cons st top =>
      obtain ⟨-, hst, hrest⟩ := h
      rw [List.foldl_cons, ← addRule_of_holds hst, ← ih hrest, List.filter_cons]
      split <;> rfl

/-- The properties of a stylesheet that is made of statements. -/
theorem ofSheet_ofStatements (path : String) (top : List Statement) :
    ofSheet (ofStatements path top) = top.foldl addStatement empty := by
  rw [ofSheet]
  exact foldl_addRule (holdsAll_ofStatements path top) empty

/-! ## Without positions -/

theorem declaredIn_shapes (body : List Statement) :
    declaredIn (Statement.shapes body) = declaredIn body := by
  induction body with
  | nil => rfl
  | cons st body ih =>
    cases st
    rw [Statement.shapes, declaredIn, declaredIn, List.filterMap_cons, List.filterMap_cons,
      ← declaredIn, ← declaredIn, ih]
    rfl

theorem addStatement_shape (p : CustomProperties) (st : Statement) :
    addStatement p st.shape = addStatement p st := by
  obtain ⟨kind, pos, body⟩ := st
  rw [Statement.shape, addStatement, addStatement]
  dsimp only [Statement.kind, Statement.body]
  rw [declaredIn_shapes]

theorem foldl_addStatement_shapes (p : CustomProperties) (top : List Statement) :
    (Statement.shapes top).foldl addStatement p = top.foldl addStatement p := by
  induction top generalizing p with
  | nil => rfl
  | cons st top ih =>
    rw [Statement.shapes, List.foldl_cons, List.foldl_cons, addStatement_shape, ih]

/-- A text that is read as some statements declares what they do. -/
theorem read_of_readsAs {css : String} {top : List Statement} (h : ReadsAs false css.toList top)
    (path : String) : read css path = .ok (top.foldl addStatement empty) := by
  obtain ⟨top', hparse, hshapes⟩ := h.parse path
  rw [read, hparse, Except.map, ofSheet_ofStatements, ← foldl_addStatement_shapes, hshapes,
    foldl_addStatement_shapes]

end CssTheming.CustomProperties
