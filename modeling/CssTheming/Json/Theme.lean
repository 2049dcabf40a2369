import CssTheming.Json.Decode
import CssTheming.Json.Printer
import CssTheming.Theme.Basic

/-!
# Themes in JSON

Two tables. A key that is repeated in a table has the value that comes last.
-/

namespace CssTheming

def Table.toJson {α : Type} (value : α → Json) (t : Table α) : Json :=
  .record (t.entries.map fun (key, v) => (key, value v))

def Table.ofJson? {α : Type} (value : Json → Option α) : Json → Option (Table α)
  | .object entries => do return .ofList (← entries.mapM fun (key, j) => do return (← key, ← value j))
  | _ => none

namespace Theme

def Literal.toJson : Literal → Json
  | .text value => .text value
  | .number value => .number (some value)

def Literal.ofJson? : Json → Option Literal
  | .string value => value.map .text
  | .number value => value.map .number
  | _ => none

def toJson (t : Theme) : Json :=
  .record [("contextless", t.contextless.toJson Literal.toJson),
    ("contextual", t.contextual.toJson (Table.toJson Literal.toJson))]

def ofJson? (j : Json) : Option Theme := do
  match ← Json.fields? ["contextless", "contextual"] j with
  | [some contextless, some contextual] =>
    return ⟨← Table.ofJson? Literal.ofJson? contextless, ← Table.ofJson? (Table.ofJson? Literal.ofJson?) contextual⟩
  | _ => none

end Theme

end CssTheming
