import CssTheming.Identifier
import CssTheming.Text.Part

/-!
# Custom properties of keys

The custom property that carries a key's value is named by two hyphens, the configured prefix and the key, written as
one CSS name.
-/

namespace CssTheming.CustomProperty

/-- The name as it is written in a stylesheet. -/
def name (start key : String) : String := "--" ++ Identifier.encodeName (start ++ key)

/-- What follows the hyphens of a written custom property name. -/
def read? (written : String) : Option String := (Identifier.decode? written).bind (Text.stripStart? "--")

/-- The key whose value a written custom property carries. -/
def key? (start written : String) : Option String :=
  ((read? written).bind (Text.stripStart? start)).filter (· ≠ "")

end CssTheming.CustomProperty
