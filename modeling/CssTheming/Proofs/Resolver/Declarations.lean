import CssTheming.Proofs.Table
import CssTheming.Resolver.Properties

/-!
# What a stylesheet declares at a place

The root and each class are places that selectors name. A stylesheet gives a custom property at a
place the value of its last declaration, of all in rules at the top whose selectors name the place.
-/

namespace CssTheming.CustomProperties

variable {p : CustomProperties} {place : Option String} {property : String}

/-- What a selector names: the root, which is `none`, or a class. -/
def placeOf? (selector : String) : Option (Option String) :=
  if selector = ":root" then some none
  else ((Text.stripStart? "." selector).bind Identifier.decode?).map some

/-- The properties at a place. -/
def table? (p : CustomProperties) : Option String → Option (Table String)
  | none => some p.root
  | some name => p.classes.get? name

def value? (p : CustomProperties) (place : Option String) (property : String) : Option String :=
  (p.table? place).bind (·.get? property)

/-- The declarations of a rule count once for each of its selectors. -/
def ruleDeclarations (s : Sheet) (place : Option String) (id : Nat) : List (String × String) :=
  (s.selectors id).flatMap fun selector =>
    if placeOf? selector = some place then (s.children id).filterMap (declared? s) else []

/-- The declarations that count at a place, in the order of the stylesheet. -/
def declarations (s : Sheet) (place : Option String) : List (String × String) :=
  ((s.children Sheet.root).filter s.isRule).flatMap (ruleDeclarations s place)

/-- The last value of a property among declarations. -/
def lastValue? (property : String) (ds : List (String × String)) : Option String :=
  Table.lookupEntry property ds.reverse

theorem lastValue?_append (property : String) (ds es : List (String × String)) :
    lastValue? property (ds ++ es) = (lastValue? property es).or (lastValue? property ds) := by
  rw [lastValue?, List.reverse_append, Table.lookupEntry_append]
  rfl

theorem value?_addSelector (ds : List (String × String)) (p : CustomProperties)
    (selector : String) (place : Option String) (property : String) :
    (addSelector ds p selector).value? place property =
      (lastValue? property (if placeOf? selector = some place then ds else [])).or
        (p.value? place property) := by
  rw [addSelector, placeOf?]
  split
  · cases place with
    | none => exact Table.get?_insertAll p.root ds property
    | some name => rfl
  · cases hname : (Text.stripStart? "." selector).bind Identifier.decode? with
    | none => rfl
    | some name =>
      cases place with
      | none => rfl
      | some name' =>
        simp only [value?, table?, Table.get?_insert, Option.map_some, Option.some.injEq]
        by_cases heq : name' = name
        · subst heq
          rw [if_pos rfl, if_pos rfl, Option.bind_some, Table.get?_insertAll, lastValue?]
          cases p.classes.get? name' <;> rfl
        · rw [if_neg heq, if_neg (Ne.symm heq)]
          rfl

theorem value?_foldl {α : Type} {add : CustomProperties → α → CustomProperties}
    {found : α → List (String × String)}
    (hadd : ∀ p a, (add p a).value? place property =
      (lastValue? property (found a)).or (p.value? place property))
    (as : List α) (p : CustomProperties) :
    (as.foldl add p).value? place property =
      (lastValue? property (as.flatMap found)).or (p.value? place property) := by
  induction as generalizing p with
  | nil => rfl
  | cons a as ih =>
    rw [List.foldl_cons, ih, hadd, List.flatMap_cons, lastValue?_append, Option.or_assoc]

theorem value?_addRule (s : Sheet) (p : CustomProperties) (id : Nat) :
    (addRule s p id).value? place property =
      (lastValue? property (ruleDeclarations s place id)).or (p.value? place property) :=
  value?_foldl (fun p selector => value?_addSelector _ p selector place property) _ p

/-- A stylesheet gives a property the value of the last declaration that counts. -/
theorem value?_ofSheet (s : Sheet) (place : Option String) (property : String) :
    (ofSheet s).value? place property = lastValue? property (declarations s place) := by
  have hempty : empty.value? place property = none := by cases place <;> rfl
  rw [ofSheet, value?_foldl (value?_addRule s), hempty, Option.or_none]
  rfl

end CssTheming.CustomProperties
