import CssTheming.Json.Basic

/-!
# Records in JSON

A record is an object with its fields in any order, or an array with all of them in their own order. Fields that the
record does not have are passed over; one of its own that is repeated is refused.
-/

namespace CssTheming.Json

def string? : Json → Option String
  | .string value => value
  | _ => none

def bool? : Json → Option Bool
  | .bool value => some value
  | _ => none

def items? : Json → Option (List Json)
  | .array items => some items
  | _ => none

def strings? (j : Json) : Option (List String) := do (← items? j).mapM string?

/-- The value of a field, which may be absent or `null` and then is `some none`. The answer is `none` if `read` refuses
the field. -/
def optional? {α : Type} (read : Json → Option α) : Option Json → Option (Option α)
  | none => some none
  | some .null => some none
  | some j => (read j).map some

/-- The values of the named fields, in the order of the names. -/
def fields? (names : List String) : Json → Option (List (Option Json))
  | .array items => if items.length = names.length then some (items.map some) else none
  | .object entries => do
    let keys ← entries.mapM (·.1)
    names.mapM fun name =>
      if keys.count name > 1 then none
      else some ((entries.find? fun e => e.1 = some name).map (·.2))
  | _ => none

end CssTheming.Json
