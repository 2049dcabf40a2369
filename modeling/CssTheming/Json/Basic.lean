import CssTheming.Document.Basic

/-!
# JSON

The tree of a JSON text. A numeral or string can be well written and still name no value: a number beyond the range of
doubles, or text with half of a surrogate pair. Such a leaf holds `none`, and who reads on decides whether it matters.
Objects keep the order of the text and repeated keys.
-/

namespace CssTheming

inductive Json where
  | null
  | bool (value : Bool)
  | number (value : Option Number)
  | string (value : Option String)
  | array (items : List Json)
  | object (entries : List (Option String × Json))

namespace Json

/-- Text as JSON. -/
def text (value : String) : Json := .string (some value)

def nat (value : Nat) : Json := .number (some (.int value))

def texts (values : List String) : Json := .array (values.map text)

/-- An object with the given keys in their order. -/
def record (entries : List (String × Json)) : Json := .object (entries.map fun (key, value) => (some key, value))

end Json

end CssTheming
